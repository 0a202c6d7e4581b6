import OrcDb.Bytes

/-!
# `Config::Load` — the peers

`src/util/Config.{hpp,cpp}`. `Load` takes the peers from the environment variable `PEERS` when
it is set, a list `host:port,host:port,…`. A node's own entry is a peer like any other: the
loop does not compare it with `NODE_ID`. `main` and the constructor of `RaftNode` copy the list
into `peers_` entry by entry.

The rest of `NodeConfig` is read into fields that no modelled function looks at.
-/

set_option autoImplicit false

namespace OrcDb

structure PeerConfig where
  id : Bytes
  host : Bytes
  raftPort : Nat
deriving DecidableEq

namespace Config

/-- `rfind(':')`, as what stands in front of the last colon and behind it. Without a colon
    both `substr(0, npos)` and `substr(npos + 1)` are the whole entry. -/
def splitAtColon (entry : Bytes) : Bytes × Bytes :=
  if 58 ∈ entry then
    let port := (entry.reverse.takeWhile (· ≠ 58)).reverse
    (entry.take (entry.length - port.length - 1), port)
  else (entry, entry)

/-- One entry. The host name is the id, and the port is cast to `uint16_t`; `none` is
    `std::stoi` throwing. -/
def loadPeer (entry : Bytes) : Option PeerConfig := do
  let (host, port) := splitAtColon entry
  let n ← stoi port
  return { id := host, host, raftPort := (n % 2 ^ 16).toNat }

/-- The loop, on what is left of the text: up to the next comma, then on behind it. Every
    round takes a byte at least. -/
def loadPeersFrom : Nat → Bytes → Option (List PeerConfig)
  | 0, _ => some []
  | _ + 1, [] => some []
  | fuel + 1, s => do
      let p ← loadPeer (s.takeWhile (· ≠ 44))
      let ps ← loadPeersFrom fuel (s.dropWhile (· ≠ 44)).tail
      return p :: ps

/-- The peers `Load` reads from the text of `PEERS`. -/
def loadPeers (s : Bytes) : Option (List PeerConfig) := loadPeersFrom s.length s

end Config
end OrcDb
