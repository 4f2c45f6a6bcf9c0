import MatchingLogic.Bundle
import MatchingLogic.Bytes
import MatchingLogic.Cbor.Item
import MatchingLogic.Cbor.Reader
import MatchingLogic.Cbor.Record
import MatchingLogic.Certificate.Basic
import MatchingLogic.Certificate.Cbor
import MatchingLogic.Certificate.Instruction
import MatchingLogic.Certificate.Uses
import MatchingLogic.Certificate.Writer
import MatchingLogic.Digest.Basic
import MatchingLogic.Digest.Sha256
import MatchingLogic.Error
import MatchingLogic.Execution.Basic
import MatchingLogic.Execution.Simplification
import MatchingLogic.FirstOccurrence
import MatchingLogic.Kore.Cbor
import MatchingLogic.Kore.Converter
import MatchingLogic.Kore.Syntax
import MatchingLogic.Matcher
import MatchingLogic.Metamath.Cbor
import MatchingLogic.Metamath.Scope
import MatchingLogic.Metamath.Syntax
import MatchingLogic.Metamath.Theory
import MatchingLogic.Names
import MatchingLogic.Notation.Basic
import MatchingLogic.Notation.Builtin
import MatchingLogic.Notation.Registry
import MatchingLogic.Notation.Unfolding
import MatchingLogic.Pattern.Basic
import MatchingLogic.Pattern.Canonical
import MatchingLogic.Pattern.Location
import MatchingLogic.Pattern.Order
import MatchingLogic.Pattern.Substitution
import MatchingLogic.Pattern.Text
import MatchingLogic.Proof.Basic
import MatchingLogic.Proof.Propositional
import MatchingLogic.Regex
import MatchingLogic.Semantics.Basic
import MatchingLogic.Semantics.Table
import MatchingLogic.Semantics.Trace
import MatchingLogic.Text.Blank
import MatchingLogic.Proofs.Names
import MatchingLogic.Proofs.Pattern.Substitution
import MatchingLogic.Proofs.Notation.Expansion
import MatchingLogic.Proofs.Notation.Unfolding
import MatchingLogic.Proofs.Certificate.Machine
import MatchingLogic.Proofs.Certificate.Writer
import MatchingLogic.Proofs.Certificate.Statements
import MatchingLogic.Proofs.Certificate.Derivation
import MatchingLogic.Proofs.Execution.InPlace
import MatchingLogic.Proofs.Execution.Closing
import MatchingLogic.Proofs.Certificate.Packaging
import MatchingLogic.Proofs.Execution.Obligations
import MatchingLogic.Proofs.Execution.Atomicity
import MatchingLogic.Proofs.Proof.Soundness
import MatchingLogic.Proofs.Notation.Arity
import MatchingLogic.Proofs.Notation.Acyclic
import MatchingLogic.Proofs.Certificate.Uses
import MatchingLogic.Proofs.Certificate.Reuse
import MatchingLogic.Proofs.Kore.Answers
import MatchingLogic.Proofs.Kore.Arity
import MatchingLogic.Proofs.Execution.Confinement
import MatchingLogic.Proofs.Kore.Packaging
import MatchingLogic.Proofs.Kore.Image
import MatchingLogic.Proofs.Kore.Injectivity
import MatchingLogic.Proofs.Kore.Innermost
import MatchingLogic.Proofs.Kore.Learning
import MatchingLogic.Proofs.Kore.Redexes
import MatchingLogic.Proofs.Kore.Replay
import MatchingLogic.Proofs.Execution.Innermost
import MatchingLogic.Proofs.Execution.Licensing
import MatchingLogic.Proofs.Execution.Divergence
import MatchingLogic.Proofs.Kore.Run
import MatchingLogic.Proofs.Kore.Reading
import MatchingLogic.Proofs.Kore.Fragment
import MatchingLogic.Proofs.Kore.Guard
import MatchingLogic.Proofs.Kore.Stability
import MatchingLogic.Proofs.Kore.Commutation
import MatchingLogic.Proofs.Kore.Permanence
import MatchingLogic.Proofs.Certificate.Acceptance
import MatchingLogic.Proofs.Notation.Registration
import MatchingLogic.Proofs.Metamath.Blocks
import MatchingLogic.Proofs.Metamath.Meaning
import MatchingLogic.Proofs.Metamath.SelfContained
import MatchingLogic.Proofs.Cbor.Reading
import MatchingLogic.Proofs.Cbor.Decoding
import MatchingLogic.Proofs.Cbor.RoundTrip
import MatchingLogic.Proofs.Pattern.Canonical
import MatchingLogic.Proofs.Notation.FullExpansion
import MatchingLogic.Proofs.Notation.Commutation
import MatchingLogic.Proofs.Certificate.Traversal
import MatchingLogic.Proofs.Certificate.Calls
import MatchingLogic.Proofs.Certificate.Sharing
import MatchingLogic.Proofs.Certificate.Repetition
import MatchingLogic.Proofs.Pattern.Instantiation
import MatchingLogic.Proofs.FirstOccurrence
import MatchingLogic.Proofs.Proof.Transitivity
import MatchingLogic.Proofs.Semantics.Grouping
import MatchingLogic.Proofs.Kore.RedexCount
