import Superseedr.Model.HashExchange
import Superseedr.Soundness.HashLayers

/-! # Two clients agree on the index of a hash only at the start of the torrent

The request counts pieces from the start of their file, and so does the client that attributes the answer.
The client that answers takes the index of the request for an index in the whole torrent, and counts the
start of the file it finds there modulo 4 GiB. It therefore answers with the hash of another piece, or not
at all, unless the file starts with the first piece of the torrent or the hashes happen to agree.
-/

namespace Superseedr

open TorrentState List

variable {rootHash root fileRoot proof : Bytes} {pieceLen n index q second first offset : ℕ}
  {files : List (Bytes × ℕ × Bytes)} {answer : HashMessage}

namespace Torrent

variable {torrent asked : Torrent}

theorem sortedV2Roots_congr (same : asked.info = torrent.info) : asked.sortedV2Roots = torrent.sortedV2Roots := by
  rw [sortedV2Roots, sortedV2Roots, getV2Roots, getV2Roots, same]

theorem pieceLen_congr (same : asked.info = torrent.info) : asked.pieceLen = torrent.pieceLen := by
  rw [pieceLen, pieceLen, same]

structure Stores (torrent : Torrent) (root : V2RootInfo) (layer : List Bytes) : Prop where
  several : torrent.pieceLen < root.length
  width : root.rootHash.length = 32
  stored : torrent.getLayerHashes root.rootHash = some layer.flatten
  wide : ∀ hash ∈ layer, hash.length = 32

/-- The first piece of a file, as the lookup of a hash counts it. -/
def narrowedStart (pieceLen fileOffset : ℕ) : ℕ := u32 fileOffset / u32 pieceLen

/-- The index a request carries for a piece at an index of its file. -/
def askedIndex (pieceLen relative p : ℕ) : ℕ :=
  u32 (if 16384 ≤ pieceLen then relative * pieceLen / 16384 / 2 ^ trailingZeros (pieceLen / 16384) else p)

/-- The lookup at an index finds the entry of the layer behind the narrowed start of the file. -/
theorem getV2HashLayer_stored {layer : List Bytes} (stored : torrent.getLayerHashes rootHash = some layer.flatten)
    (wide : ∀ hash ∈ layer, hash.length = 32) (positive : 0 < torrent.pieceLen) (narrow : u32 torrent.pieceLen ≠ 0)
    (i offset length : ℕ) :
    torrent.getV2HashLayer i offset length 1 rootHash =
      some (if i < narrowedStart torrent.pieceLen offset then none
        else layer[i - narrowedStart torrent.pieceLen offset]?) := by
  obtain ⟨start, isStart⟩ : ∃ start, start = narrowedStart torrent.pieceLen offset := ⟨_, rfl⟩
  have room : layer.flatten.length / 32 = layer.length := by
    rw [length_flatten_of_wide wide, Nat.mul_div_cancel _ (by decide)]
  have counted : u32 offset / u32 torrent.pieceLen = start := isStart.symm
  rw [getV2HashLayer, if_neg (by omega), if_neg narrow, counted, ← isStart]
  by_cases behind : i < start
  · rw [if_pos behind, if_pos behind]
  rw [if_neg behind, if_neg behind]
  dsimp only
  rw [stored]
  dsimp only
  rcases lt_or_ge (i - start) layer.length with inside | outside
  · rw [if_pos (by omega), Nat.one_mul, slice_flatten wide inside]
  · rw [if_neg (by omega), getElem?_eq_none outside]

end Torrent

open Torrent (filePieces)

theorem mem_attributedPieces (positive : 0 < pieceLen) (pieces : n + filePieces pieceLen files < 2 ^ 32)
    (bytes : (n + filePieces pieceLen files) * pieceLen < 2 ^ 64) :
    q ∈ attributedPieces pieceLen root index (n * pieceLen) files ↔
      ∃ before path length after, files = before ++ (path, length, root) :: after ∧
        q = u32 (n + filePieces pieceLen before + index) := by
  induction files generalizing n with
  | nil => simp [attributedPieces]
  | cons file rest ih =>
    obtain ⟨path, length, otherRoot⟩ := file
    simp only [Torrent.filePieces_cons, ← Nat.add_assoc] at pieces bytes
    have upTo : (n + divCeil length pieceLen) * pieceLen ≤
        (n + divCeil length pieceLen + filePieces pieceLen rest) * pieceLen :=
      Nat.mul_le_mul_right _ (Nat.le_add_right _ _)
    have next : u64 (n * pieceLen + u64 (divCeil length pieceLen * pieceLen)) =
        (n + divCeil length pieceLen) * pieceLen := by
      rw [Nat.add_mul] at upTo ⊢
      have inner : u64 (divCeil length pieceLen * pieceLen) = divCeil length pieceLen * pieceLen :=
        u64_of_lt (by omega)
      rw [inner, u64_of_lt (by omega)]
    have start : u32 (n * pieceLen / pieceLen) = n := by
      rw [Nat.mul_div_cancel _ positive]
      exact u32_of_lt (by omega)
    rw [attributedPieces, next, start, mem_append, ih pieces bytes]
    constructor
    · rintro (here | ⟨before, otherPath, otherLength, after, rfl, isIndex⟩)
      · split_ifs at here with same
        · subst same
          exact ⟨[], path, length, rest, rfl, by simpa [filePieces] using here⟩
        · cases here
      · exact ⟨(path, length, otherRoot) :: before, otherPath, otherLength, after, rfl,
          by rw [isIndex, Torrent.filePieces_cons, ← Nat.add_assoc]⟩
    · rintro ⟨before, otherPath, otherLength, after, split, isIndex⟩
      cases before with
      | nil =>
        obtain ⟨⟨rfl, rfl, rfl⟩, rfl⟩ :
            (path = otherPath ∧ length = otherLength ∧ otherRoot = root) ∧ rest = after := by
          simpa using split
        left
        rw [if_pos rfl, isIndex]
        simp [filePieces]
      | cons first before =>
        obtain ⟨rfl, rfl⟩ : (path, length, otherRoot) = first ∧
            rest = before ++ (otherPath, otherLength, root) :: after := by simpa using split
        exact .inr ⟨before, otherPath, otherLength, after, rfl,
          by rw [isIndex, Torrent.filePieces_cons, ← Nat.add_assoc]⟩

/-- Two clients that know each other and have the same version 2 torrent; the one that asks may lack the piece
layers. -/
structure HashPeers (torrent : Torrent) (requester responder : TorrentState) (responderId requesterId : PeerId) :
    Prop where
  asks : ∃ asked, requester.torrent = some asked ∧ asked.info = torrent.info
  files : requester.pieceToRoots = torrent.calculateV2Mapping.pieceToRoots
  toResponder : responderId ∈ requester.peers
  serves : responder.torrent = some torrent
  served : responder.pieceToRoots = torrent.calculateV2Mapping.pieceToRoots
  toRequester : requesterId ∈ responder.peers

/-- The exchange for a piece ends in a proof for this piece that carries a hash. -/
def Delivers (requester responder : TorrentState) (responderId requesterId : PeerId) (p : ℕ) (hash : Bytes) : Prop :=
  ∃ actions, hashExchange requester responder responderId requesterId p = some actions ∧
    .merkleProofReceived responderId p hash ∈ actions

section Exchange

variable {torrent : Torrent} {requester responder : TorrentState} {responderId requesterId : PeerId} {p i b : ℕ}
  {root : V2RootInfo} {layer : List Bytes} {hash : Bytes}

section

variable (peers : HashPeers torrent requester responder responderId requesterId)
include peers

theorem hashRequest_eq (space : torrent.Space) (mapped : torrent.calculateV2Mapping.pieceToRoots p = some [root]) :
    ∃ b, requester.hashRequest responderId p =
      [.requestHashes responderId root.rootHash
        (Torrent.askedIndex torrent.pieceLen (p - root.fileOffset / torrent.pieceLen) p) 1 0 b] := by
  obtain ⟨inside, found, single, placed⟩ := space.single mapped
  obtain rfl : root = found := by simpa using single
  obtain ⟨asked, loaded, info⟩ := peers.asks
  have position := u64_of_lt (lt_of_le_of_lt (Nat.mul_le_mul_right _ inside.le) space.bytes)
  have distance : p * torrent.pieceLen - root.fileOffset =
      (p - root.fileOffset / torrent.pieceLen) * torrent.pieceLen := by
    rw [Nat.sub_mul, ← placed.covers.aligned]
  refine ⟨if 16384 ≤ torrent.pieceLen then trailingZeros (torrent.pieceLen / 16384) else 0, ?_⟩
  simp only [hashRequest, peers.files, mapped, loaded, Option.map_some, Option.getD_some, Torrent.pieceLen_congr info,
    position, distance, Torrent.askedIndex]
  split_ifs <;> rfl

theorem delivers_iff_answer
    (request : requester.hashRequest responderId p = [.requestHashes responderId fileRoot i 1 0 b])
    (answered : responder.getHashes requesterId fileRoot b i 1 = some [answer]) :
    Delivers requester responder responderId requesterId p hash ↔
      ∃ actions, requester.receiveHashes responderId answer = some actions ∧
        .merkleProofReceived responderId p hash ∈ actions := by
  have exchanged : hashExchange requester responder responderId requesterId p =
      requester.receiveHashes responderId answer := by
    cases received : requester.receiveHashes responderId answer <;>
      simp [hashExchange, request, sendHashRequest, peers.toResponder, answerHashes, answered, received]
  rw [Delivers, exchanged]

theorem receives_iff (space : torrent.Space) (width : proof.length = 32) :
    (∃ actions, requester.receiveHashes responderId (.piece fileRoot b i proof) = some actions ∧
        .merkleProofReceived responderId p hash ∈ actions) ↔
      proof = hash ∧ ∃ before path length after, torrent.sortedV2Roots = before ++ (path, length, fileRoot) :: after ∧
        p = u32 (filePieces torrent.pieceLen before + i) := by
  obtain ⟨asked, loaded, info⟩ := peers.asks
  have size := Torrent.pieceLen_congr info
  have positive := space.positive
  have whole : TorrentState.trimProof proof = proof := by simp [TorrentState.trimProof, width]
  have received : requester.receiveHashes responderId (.piece fileRoot b i proof) =
      some ((attributedPieces torrent.pieceLen fileRoot i 0 torrent.sortedV2Roots).map fun q =>
        .merkleProofReceived responderId q proof) := by
    simp only [receiveHashes, merkleHashData, loaded, size, whole, Torrent.sortedV2Roots_congr info]
    rw [if_neg fun unsized => absurd unsized.1 (by omega)]
  have attributed : p ∈ attributedPieces torrent.pieceLen fileRoot i (0 * torrent.pieceLen) torrent.sortedV2Roots ↔ _ :=
    mem_attributedPieces positive (by simpa using space.pieces) (by simpa using space.bytes)
  simp only [Nat.zero_mul, Nat.zero_add] at attributed
  rw [received, ← attributed]
  constructor
  · rintro ⟨actions, isActions, member⟩
    cases isActions
    obtain ⟨q, among, same⟩ := mem_map.mp member
    injection same with _ isPiece isHash
    exact ⟨isHash, isPiece ▸ among⟩
  · rintro ⟨rfl, among⟩
    exact ⟨_, rfl, mem_map.mpr ⟨p, among, rfl⟩⟩

theorem getHashes_eq (space : torrent.Space) (stores : torrent.Stores root layer) :
    (∃ file, torrent.calculateV2Mapping.pieceToRoots i = some [file] ∧ file.rootHash = root.rootHash ∧
        (u32 torrent.pieceLen = 0 ∧ responder.getHashes requesterId root.rootHash b i 1 = none ∨
          u32 torrent.pieceLen ≠ 0 ∧ responder.getHashes requesterId root.rootHash b i 1 =
            some [match if i < Torrent.narrowedStart torrent.pieceLen file.fileOffset then none
                else layer[i - Torrent.narrowedStart torrent.pieceLen file.fileOffset]? with
              | some proof => .piece root.rootHash b i proof
              | none => .reject root.rootHash b i 1 0])) ∨
      (∀ file, torrent.calculateV2Mapping.pieceToRoots i = some [file] → file.rootHash ≠ root.rootHash) ∧
        responder.getHashes requesterId root.rootHash b i 1 = some [.reject root.rootHash b i 1 0] := by
  have positive := space.positive
  have registered := decide_eq_true peers.toRequester
  have named : root.rootHash ≠ [] := by
    intro empty
    have width := stores.width
    simp [empty] at width
  cases found : torrent.calculateV2Mapping.pieceToRoots i with
  | none =>
    right
    refine ⟨fun file impossible => (by cases impossible), ?_⟩
    simp [getHashes, peers.serves, peers.served, found, peers.toRequester]
  | some roots =>
    obtain ⟨-, file, rfl, -⟩ := space.single found
    by_cases same : file.rootHash = root.rootHash
    · left
      refine ⟨file, rfl, same, ?_⟩
      by_cases narrow : u32 torrent.pieceLen = 0
      · have unserved : torrent.getV2HashLayer i file.fileOffset file.length 1 root.rootHash = none := by
          rw [Torrent.getV2HashLayer, if_neg (by omega), if_pos narrow]
        simp [narrow, getHashes, peers.serves, peers.served, found, serveHashes, same, unserved]
      refine .inr ⟨narrow, ?_⟩
      have lookup := Torrent.getV2HashLayer_stored stores.stored stores.wide positive narrow i
        file.fileOffset file.length
      simp only [getHashes, peers.serves, peers.served, found, serveHashes, same, ne_eq, not_true_eq_false, and_false,
        if_false, lookup, Option.bind_some, registered, if_true]
      cases (if i < Torrent.narrowedStart torrent.pieceLen file.fileOffset then none
        else layer[i - Torrent.narrowedStart torrent.pieceLen file.fileOffset]?) <;> rfl
    · right
      refine ⟨fun other isOther => ?_, ?_⟩
      · obtain rfl : file = other := by simpa using isOther
        exact same
      · simp [getHashes, peers.serves, peers.served, found, serveHashes, same, named, peers.toRequester]

theorem delivers_iff (space : torrent.Space) (stores : torrent.Stores root layer)
    (request : requester.hashRequest responderId p = [.requestHashes responderId root.rootHash i 1 0 b]) :
    Delivers requester responder responderId requesterId p hash ↔
      (∃ before path length after, torrent.sortedV2Roots = before ++ (path, length, root.rootHash) :: after ∧
        p = u32 (filePieces torrent.pieceLen before + i)) ∧
      ∃ file, torrent.calculateV2Mapping.pieceToRoots i = some [file] ∧ file.rootHash = root.rootHash ∧
        u32 torrent.pieceLen ≠ 0 ∧ Torrent.narrowedStart torrent.pieceLen file.fileOffset ≤ i ∧
        layer[i - Torrent.narrowedStart torrent.pieceLen file.fileOffset]? = some hash := by
  have rejected : responder.getHashes requesterId root.rootHash b i 1 = some [.reject root.rootHash b i 1 0] →
      ¬Delivers requester responder responderId requesterId p hash := by
    intro answered delivers
    obtain ⟨actions, received, member⟩ := (delivers_iff_answer peers request answered).mp delivers
    cases received
    cases member
  rcases getHashes_eq (b := b) (i := i) peers space stores with ⟨file, found, same, served⟩ | ⟨nobody, answered⟩
  · have only : ∀ other, torrent.calculateV2Mapping.pieceToRoots i = some [other] → other = file := by
      intro other isOther
      simpa using (isOther.symm.trans found)
    rcases served with ⟨narrow, stopped⟩ | ⟨narrow, answered⟩
    · have silent : ¬Delivers requester responder responderId requesterId p hash := by
        rintro ⟨actions, exchanged, -⟩
        simp [hashExchange, request, sendHashRequest, peers.toResponder, answerHashes, stopped] at exchanged
      refine iff_of_false silent ?_
      rintro ⟨-, other, -, -, wide, -⟩
      exact wide narrow
    by_cases behind : i < Torrent.narrowedStart torrent.pieceLen file.fileOffset
    · rw [if_pos behind] at answered
      refine iff_of_false (rejected answered) ?_
      rintro ⟨-, other, isOther, -, -, before, -⟩
      rw [only other isOther] at before
      omega
    rw [if_neg behind] at answered
    cases entry : layer[i - Torrent.narrowedStart torrent.pieceLen file.fileOffset]? with
    | none =>
      rw [entry] at answered
      refine iff_of_false (rejected answered) ?_
      rintro ⟨-, other, isOther, -, -, -, found⟩
      rw [only other isOther, entry] at found
      cases found
    | some proof =>
      rw [entry] at answered
      rw [delivers_iff_answer peers request answered,
        receives_iff peers space (stores.wide proof (mem_of_getElem? entry))]
      constructor
      · rintro ⟨rfl, attributed⟩
        exact ⟨attributed, file, found, same, narrow, not_lt.mp behind, entry⟩
      · rintro ⟨attributed, other, isOther, -, -, -, isHash⟩
        rw [only other isOther, entry] at isHash
        exact ⟨Option.some.inj isHash, attributed⟩
  · refine iff_of_false (rejected answered) ?_
    rintro ⟨-, file, found, same, -⟩
    exact nobody file found same

end

/-- The exchange for a piece of a file with several pieces delivers the hash of the piece exactly if some file with the
same root starts as many pieces before it as the request says, and the index of the request, taken for one in the whole
torrent, is that of a piece of a file with the same root at which the lookup finds the same hash. -/
theorem hash_exchange_agrees_iff (peers : HashPeers torrent requester responder responderId requesterId)
    (space : torrent.Space) (mapped : torrent.calculateV2Mapping.pieceToRoots p = some [root])
    (stores : torrent.Stores root layer) (entry : layer[p - root.fileOffset / torrent.pieceLen]? = some hash)
    (isIndex : i = Torrent.askedIndex torrent.pieceLen (p - root.fileOffset / torrent.pieceLen) p) :
    Delivers requester responder responderId requesterId p hash ↔
      (∃ before path length after, torrent.sortedV2Roots = before ++ (path, length, root.rootHash) :: after ∧
        p = u32 (filePieces torrent.pieceLen before + i)) ∧
      ∃ file, torrent.calculateV2Mapping.pieceToRoots i = some [file] ∧ file.rootHash = root.rootHash ∧
        u32 torrent.pieceLen ≠ 0 ∧ Torrent.narrowedStart torrent.pieceLen file.fileOffset ≤ i ∧
        layer[i - Torrent.narrowedStart torrent.pieceLen file.fileOffset]? =
          layer[p - root.fileOffset / torrent.pieceLen]? := by
  obtain ⟨b, request⟩ := hashRequest_eq peers space mapped
  rw [← isIndex] at request
  rw [delivers_iff peers space stores request, entry]

end Exchange

def twoFiles (first second : ℕ) : Torrent where
  info :=
    { pieceLength := 16384
      pieces := []
      files := []
      name := "t"
      length := 0
      metaVersion := some 2
      fileTree := some (.dict [
        ([97], .dict [([], .dict
          [([108, 101, 110, 103, 116, 104], .int first),
            ([112, 105, 101, 99, 101, 115, 32, 114, 111, 111, 116], .bytes (replicate 32 1))])]),
        ([98], .dict [([], .dict
          [([108, 101, 110, 103, 116, 104], .int second),
            ([112, 105, 101, 99, 101, 115, 32, 114, 111, 111, 116], .bytes (replicate 32 2))])])]) }
  pieceLayers := some (.dict [(replicate 32 2, .bytes [replicate 32 5, replicate 32 6, replicate 32 7].flatten)])

def clientOf (torrent : Torrent) (peer : PeerId) : TorrentState :=
  { emptyState with
    torrent := some torrent
    pieceToRoots := torrent.calculateV2Mapping.pieceToRoots
    peers := (∅ : AList fun _ : PeerId => PeerState).insert peer (.new peer 0) }

def askerOf (torrent : Torrent) (peer : PeerId) : TorrentState := clientOf { torrent with pieceLayers := none } peer

theorem hashPeers_clientOf (torrent : Torrent) (responderId requesterId : PeerId) :
    HashPeers torrent (askerOf torrent responderId) (clientOf torrent requesterId) responderId requesterId :=
  ⟨⟨_, rfl, rfl⟩, rfl, (AList.mem_insert _).mpr (.inl rfl), rfl, rfl, (AList.mem_insert _).mpr (.inl rfl)⟩

/-- The second file of the two, from its first byte on. -/
def secondFile (offset length : ℕ) : V2RootInfo := ⟨offset, length, replicate 32 2, 1⟩

theorem stores_twoFiles (several : 16384 < second) :
    (twoFiles first second).Stores (secondFile offset second)
      [replicate 32 5, replicate 32 6, replicate 32 7] :=
  ⟨several, rfl, rfl, by decide +kernel⟩

/-- Behind a file of one piece, the hash of the third piece of the torrent is asked for and that of the second one is
delivered for it. -/
theorem hash_of_wrong_piece :
    (twoFiles 16384 49152).calculateV2Mapping.pieceToRoots 2 = some [secondFile 16384 49152] ∧
      (twoFiles 16384 49152).Stores (secondFile 16384 49152)
        [replicate 32 5, replicate 32 6, replicate 32 7] ∧
      Delivers (askerOf (twoFiles 16384 49152) "b") (clientOf (twoFiles 16384 49152) "a") "b" "a" 2
        (replicate 32 5) ∧
      ¬Delivers (askerOf (twoFiles 16384 49152) "b") (clientOf (twoFiles 16384 49152) "a") "b" "a" 2
        (replicate 32 6) := by
  have mapped : (twoFiles 16384 49152).calculateV2Mapping.pieceToRoots 2 = some [secondFile 16384 49152] := by
    decide +kernel
  have space : (twoFiles 16384 49152).Space := ⟨rfl, by decide, by decide +kernel, by decide +kernel⟩
  have stores : (twoFiles 16384 49152).Stores (secondFile 16384 49152)
      [replicate 32 5, replicate 32 6, replicate 32 7] := stores_twoFiles (by decide)
  have peers := hashPeers_clientOf (twoFiles 16384 49152) "b" "a"
  obtain ⟨base, request⟩ := hashRequest_eq peers space mapped
  have answered : (twoFiles 16384 49152).calculateV2Mapping.pieceToRoots 1 = some [secondFile 16384 49152] := by
    decide +kernel
  rw [show Torrent.askedIndex (twoFiles 16384 49152).pieceLen
    (2 - (secondFile 16384 49152).fileOffset / (twoFiles 16384 49152).pieceLen) 2 = 1 by decide +kernel] at request
  refine ⟨mapped, stores, (delivers_iff peers space stores request).mpr ?_, fun delivers => ?_⟩
  · refine ⟨⟨[([97], 16384, replicate 32 1)], [98], 49152, [], by decide +kernel, by decide +kernel⟩, ?_⟩
    exact ⟨_, answered, rfl, by decide +kernel, by decide +kernel, by decide +kernel⟩
  · obtain ⟨-, file, found, -, -, -, entry⟩ := (delivers_iff peers space stores request).mp delivers
    obtain rfl : secondFile 16384 49152 = file := by simpa using answered.symm.trans found
    revert entry
    decide +kernel

theorem hash_exchange_agrees_second_piece :
    Delivers (askerOf (twoFiles 0 49152) "b") (clientOf (twoFiles 0 49152) "a") "b" "a" 1 (replicate 32 6) := by
  have mapped : (twoFiles 0 49152).calculateV2Mapping.pieceToRoots 1 = some [secondFile 0 49152] := by decide +kernel
  refine (hash_exchange_agrees_iff (hashPeers_clientOf (twoFiles 0 49152) "b" "a")
    ⟨rfl, by decide, by decide +kernel, by decide +kernel⟩ mapped (stores_twoFiles (by decide)) (by decide +kernel)
    rfl).mpr ⟨⟨[([97], 0, replicate 32 1)], [98], 49152, [], by decide +kernel, by decide +kernel⟩,
      secondFile 0 49152, by decide +kernel, rfl, by decide +kernel, by decide +kernel, by decide +kernel⟩

end Superseedr
