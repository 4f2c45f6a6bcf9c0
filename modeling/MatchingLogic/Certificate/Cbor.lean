import MatchingLogic.Cbor.Record
import MatchingLogic.Certificate.Basic

namespace MatchingLogic.Certificate

open Cbor
open Cbor.Record (field)

def streamItem (stream : Bytes) : Item :=
  .list (stream.map fun b => .uint b.toUInt64)

def toItem (c : Certificate) : Item :=
  .record [("theory", streamItem c.theory), ("claims", streamItem c.claims),
    ("proofs", streamItem c.proofs)]

def ofItem : Item → Except Cbor.Error Certificate :=
  let stream (name : String) : Record Bytes := field name (Item.toList Item.toByte)
  Record.decode (Certificate.mk <$> stream "theory" <*> stream "claims" <*> stream "proofs")

end MatchingLogic.Certificate
