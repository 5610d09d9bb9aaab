import SimpleSerialize.Engine
import SimpleSerialize.Proofs.KnownAnswer
import SimpleSerialize.Proofs.Wire.RoundTrip
import SimpleSerialize.Proofs.Wire.WordSizes
import SimpleSerialize.Proofs.Merkle.Path
import SimpleSerialize.Proofs.Merkle.Joined
import SimpleSerialize.Proofs.Merkle.Hashed
import SimpleSerialize.Proofs.Merkle.Packing
import SimpleSerialize.Proofs.Merkle.Rooted
import SimpleSerialize.Proofs.Merkle.Binding
import SimpleSerialize.Proofs.Merkle.Plain
import SimpleSerialize.Proofs.Merkle.Climb
import SimpleSerialize.Proofs.Merkle.Collision
import SimpleSerialize.Proofs.Merkle.Standing
import SimpleSerialize.Proofs.Merkle.Verdict
import SimpleSerialize.Proofs.Merkle.Refused
import SimpleSerialize.Proofs.Merkle.Way
import SimpleSerialize.Proofs.Merkle.Walk
import SimpleSerialize.Proofs.Merkle.Occupied
import SimpleSerialize.Proofs.Merkle.Siblings
import SimpleSerialize.Proofs.Preset
import SimpleSerialize.Proofs.Schema
import SimpleSerialize.Proofs.Schema.Records
import SimpleSerialize.Proofs.Block.Summary
import SimpleSerialize.Proofs.Blob.Inclusion
import SimpleSerialize.Proofs.Blob.Sidecar
import SimpleSerialize.Proofs.Blob.Soundness
import SimpleSerialize.Proofs.Blob.Blinded
import SimpleSerialize.Proofs.Blob.Limits
import SimpleSerialize.Proofs.Payload.BlobTransaction
import SimpleSerialize.Proofs.Payload.Binding
import SimpleSerialize.Proofs.Engine.Sidecars
import SimpleSerialize.Proofs.Engine.Pairing
import SimpleSerialize.Proofs.Merkle.Descent
import SimpleSerialize.Proofs.Blob.Stored
import SimpleSerialize.Proofs.Wire.GuardedBits
import SimpleSerialize.Proofs.Wire.InBounds
import SimpleSerialize.Proofs.Wire.Limits
import SimpleSerialize.Proofs.Schema.Presets
import SimpleSerialize.Proofs.Wire.AnnouncedSize
import SimpleSerialize.Proofs.Wire.Outline
import SimpleSerialize.Proofs.Merkle.WireLeaves
import SimpleSerialize.Proofs.Block.Unreachable
import SimpleSerialize.Proofs.Bytes.Hex
import SimpleSerialize.Proofs.Wire.Defaults
import SimpleSerialize.Proofs.Merkle.InRange
import SimpleSerialize.Proofs.Merkle.Concat
