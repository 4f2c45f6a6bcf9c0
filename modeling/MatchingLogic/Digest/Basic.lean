import MatchingLogic.Digest.Sha256

namespace MatchingLogic

structure Digest where
  bytes : Bytes
  deriving DecidableEq

namespace Digest

-- What is hashed is the data behind its length and a label that names what the data is, so that data of
-- different domains never share a message.
def message (domain data : Bytes) : Bytes :=
  Bytes.ofString "MLP:" ++ domain ++ Bytes.ofString ":v1"
    ++ Bytes.ofUInt64 (UInt64.ofNat data.length) ++ data

def inDomain (domain data : Bytes) : Digest :=
  ⟨Sha256.hash (message domain data)⟩

def hex (d : Digest) : String :=
  Bytes.hex d.bytes

def text (d : Digest) : String :=
  "HashValue(" ++ Bytes.hex (d.bytes.take 4) ++ "…)"

def isZero (d : Digest) : Bool :=
  d.bytes == List.replicate 32 0

end Digest
end MatchingLogic
