import Superseedr.Model.DhtNode

/-! # Announce tokens

A node hands out a token with its answers and accepts announcements that bring it back. A token is the digest of a
secret, the address and the info hash. The secret is replaced when a call finds that it has been in use for the rotation
period, and the one before it stays valid for the acceptance window. The digest is a parameter, and so are the secrets
that are drawn one after the other; times are milliseconds.
-/

namespace Superseedr

/-- The bytes of a number, most significant first. -/
def octets : ℕ → ℕ → Bytes
  | 0, _ => []
  | count + 1, x => octets count (x / 256) ++ [.ofNat (x % 256)]

def IpAddr.octets : IpAddr → Bytes
  | .v4 addr => Superseedr.octets 4 addr.toNat
  | .v6 addr => Superseedr.octets 16 addr.toNat

@[ext] structure Secret where
  bytes : Bytes
  length : bytes.length = 32
deriving DecidableEq

structure TokenConfig where
  rotationPeriod : ℕ := 300000
  acceptanceWindow : ℕ := 600000
deriving DecidableEq, Repr

structure RollingSecret where
  secret : Secret
  startedAt : ℕ
deriving DecidableEq

structure TokenService where
  config : TokenConfig
  current : RollingSecret
  previous : Option RollingSecret
  /-- How many secrets were drawn. -/
  drawn : ℕ
deriving DecidableEq

/-- What is digested for a token. -/
def tokenInput (secret : Secret) (addr : IpAddr) (infoHash : InfoHash) : Bytes :=
  secret.bytes ++ addr.octets ++ octets 20 infoHash.toNat

def deriveToken (sha1 : Bytes → Bytes) (secret : Secret) (addr : IpAddr) (infoHash : InfoHash) : Bytes :=
  sha1 (tokenInput secret addr infoHash)

namespace TokenService

variable (sha1 : Bytes → Bytes) (draw : ℕ → Secret) (s : TokenService)

def new (config : TokenConfig) (now : ℕ) : TokenService := ⟨config, ⟨draw 0, now⟩, none, 1⟩

def dropExpiredPrevious (now : ℕ) : TokenService :=
  if s.previous.any fun previous => now - previous.startedAt > s.config.acceptanceWindow then
    { s with previous := none }
  else s

def rotateIfDue (now : ℕ) : TokenService :=
  if now - s.current.startedAt < s.config.rotationPeriod then s.dropExpiredPrevious now
  else
    dropExpiredPrevious
      { s with
        previous := some s.current
        current := ⟨draw s.drawn, now⟩
        drawn := s.drawn + 1 }
      now

def mintFor (addr : IpAddr) (infoHash : InfoHash) (now : ℕ) : TokenService × Bytes :=
  let s := s.rotateIfDue draw now
  (s, deriveToken sha1 s.current.secret addr infoHash)

def validateFor (addr : IpAddr) (infoHash : InfoHash) (token : Bytes) (now : ℕ) : TokenService × Bool :=
  let s := s.rotateIfDue draw now
  (s, deriveToken sha1 s.current.secret addr infoHash = token ||
    (s.previous.filter fun previous => now - previous.startedAt ≤ s.config.acceptanceWindow).any fun previous =>
      deriveToken sha1 previous.secret addr infoHash = token)

/-- A call of the service. -/
inductive Call where
  | mint (addr : IpAddr) (infoHash : InfoHash)
  | validate (addr : IpAddr) (infoHash : InfoHash) (token : Bytes)

def serve : Call × ℕ → TokenService
  | (.mint addr infoHash, now) => (s.mintFor sha1 draw addr infoHash now).1
  | (.validate addr infoHash token, now) => (s.validateFor sha1 draw addr infoHash token now).1

end TokenService

end Superseedr
