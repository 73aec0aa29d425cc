import AtomicGroup.Abi.Codec
import AtomicGroup.Abi.Error
import AtomicGroup.Abi.Json
import AtomicGroup.Abi.Layout
import AtomicGroup.Abi.Method
import AtomicGroup.Abi.Split
import AtomicGroup.Abi.Ty
import AtomicGroup.Abi.Ty.Parser
import AtomicGroup.Abi.Value
import AtomicGroup.Address
import AtomicGroup.Bytes
import AtomicGroup.Command.Arguments
import AtomicGroup.Command.Basic
import AtomicGroup.Command.Report
import AtomicGroup.Composer.Basic
import AtomicGroup.Composer.MethodCall
import AtomicGroup.Crypto.Ed25519
import AtomicGroup.Crypto.Edwards
import AtomicGroup.Crypto.Sha512
import AtomicGroup.Digest
import AtomicGroup.Json.Format
import AtomicGroup.Json.Reader
import AtomicGroup.Json.Basic
import AtomicGroup.Json.Token
import AtomicGroup.Key
import AtomicGroup.LogicSig.Account
import AtomicGroup.LogicSig.Basic
import AtomicGroup.Main
import AtomicGroup.Msgpack.Format
import AtomicGroup.Msgpack.Reader
import AtomicGroup.Msgpack.Value
import AtomicGroup.Multisig.Account
import AtomicGroup.Multisig.Envelope
import AtomicGroup.Multisig.Signing
import AtomicGroup.Params
import AtomicGroup.Proofs.Abi.Ty
import AtomicGroup.Proofs.Outcome
import AtomicGroup.Proofs.Text.BitGroups
import AtomicGroup.Signer
import AtomicGroup.Text.Bases
import AtomicGroup.Text.BitGroups
import AtomicGroup.Text.Numerals
import AtomicGroup.Text.Lines
import AtomicGroup.Txn.Basic
import AtomicGroup.Txn.Builder
import AtomicGroup.Txn.Group
import AtomicGroup.Txn.Schema
import AtomicGroup.Txn.Signed
import AtomicGroup.Wire.Forms
import AtomicGroup.Wire.Format
import AtomicGroup.Wire.Schema
import AtomicGroup.Proofs.Abi.Tuple
import AtomicGroup.Proofs.Abi.Length
import AtomicGroup.Proofs.Abi.RoundTrip
import AtomicGroup.Proofs.Txn.Group
import AtomicGroup.Proofs.Composer.Expansion
import AtomicGroup.Proofs.Composer.Run
import AtomicGroup.Proofs.Composer.Invariant
import AtomicGroup.Proofs.Composer.Requests
import AtomicGroup.Proofs.Composer.Gather
import AtomicGroup.Proofs.Composer.History
import AtomicGroup.Proofs.Msgpack.RoundTrip
import AtomicGroup.Proofs.Wire.Schema
import AtomicGroup.Proofs.Msgpack.Format
import AtomicGroup.Proofs.Txn.Codec
import AtomicGroup.Proofs.Txn.Fee
import AtomicGroup.Proofs.Txn.Binding
import AtomicGroup.Proofs.Multisig.Contributions
import AtomicGroup.Proofs.Signer
import AtomicGroup.Proofs.Composer.Authority
import AtomicGroup.Proofs.Multisig.Merging
import AtomicGroup.Proofs.Abi.Acceptance
import AtomicGroup.Proofs.Abi.Canonical
import AtomicGroup.Proofs.Text.Decimal
import AtomicGroup.Proofs.Abi.Split
import AtomicGroup.Proofs.Abi.Names
import AtomicGroup.Proofs.Text.Bases
import AtomicGroup.Proofs.Address
import AtomicGroup.Proofs.Json.Token
import AtomicGroup.Proofs.Json.RoundTrip
import AtomicGroup.Proofs.Json.Format
import AtomicGroup.Proofs.Txn.Forms
import AtomicGroup.Proofs.Abi.Fixed
import AtomicGroup.Proofs.Abi.Json
import AtomicGroup.Proofs.Composer.ForeignLists
import AtomicGroup.Proofs.Composer.Packing
import AtomicGroup.Proofs.Composer.References
import AtomicGroup.Proofs.Abi.CanonicalJson
import AtomicGroup.Proofs.Text.Lines
import AtomicGroup.Proofs.Txn.Segments
import AtomicGroup.Proofs.Command.GroupFiles
import AtomicGroup.Proofs.Multisig.Union
import AtomicGroup.Proofs.LogicSig.Delegation
import AtomicGroup.Proofs.LogicSig.Authority
import AtomicGroup.Proofs.Attachment
import AtomicGroup.Proofs.DerivedAddress
import AtomicGroup.Proofs.Composer.Arguments
import AtomicGroup.Proofs.Composer.Slots
import AtomicGroup.Proofs.Composer.Refusals
import AtomicGroup.Proofs.Composer.Singles
import AtomicGroup.Proofs.Multisig.Threshold
import AtomicGroup.Proofs.Txn.Canonical
import AtomicGroup.Proofs.Wire.Strict
import AtomicGroup.Proofs.Txn.Strict
import AtomicGroup.Proofs.Abi.PrefixFree
import AtomicGroup.Proofs.Abi.ReferenceLayout
import AtomicGroup.Proofs.Abi.Interchange
import AtomicGroup.Proofs.Abi.Signature
import AtomicGroup.Proofs.Multisig.Parameters
import AtomicGroup.Proofs.Params
import AtomicGroup.Proofs.Abi.StaticLength
import AtomicGroup.Proofs.Abi.Positions
import AtomicGroup.Proofs.Abi.Positions.Head
import AtomicGroup.Proofs.Abi.Positions.Safety
import AtomicGroup.Proofs.Abi.Fixed.Exact
import AtomicGroup.Proofs.Abi.Split.Places
import AtomicGroup.Proofs.Abi.Split.Exact
