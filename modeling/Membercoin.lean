import Membercoin.Lib.Except
import Membercoin.Script.Opcodes
import Membercoin.Script.ScriptNum
import Membercoin.Script.GetOp
import Membercoin.Script.ConditionStack
import Membercoin.Script.SigEncoding
import Membercoin.Script.Interpreter
import Membercoin.Script.Frame
import Membercoin.Script.Run
import Membercoin.Script.Verify
import Membercoin.Script.ElementSize
import Membercoin.Lib.Brackets
import Membercoin.Script.Bracketing
import Membercoin.Script.NumericOpcodes
import Membercoin.Consensus.Merkle
import Membercoin.Lib.MerkleTree
import Membercoin.Lib.BinaryCounter
import Membercoin.Consensus.MerkleLevels
import Membercoin.Consensus.MerkleComputation
import Membercoin.Lib.Forest
import Membercoin.Chain.BlockIndex
import Membercoin.Consensus.AsertAnchor
import Membercoin.Script.DerSignature
import Membercoin.Lib.OrderedMatching
import Membercoin.Script.MultisigLegacy
import Membercoin.Lib.SetBits
import Membercoin.Lib.BitBuffer
import Membercoin.Lib.FloatRounding
import Membercoin.Script.MultisigSchnorr
import Membercoin.Blockrelay.GrapheneRank
import Membercoin.Lib.RotatingTags
import Membercoin.Filter.RollingBloom
import Membercoin.Lib.FixedPointExp
import Membercoin.Consensus.Asert
import Membercoin.Lib.ByteCodec
import Membercoin.Serialize.Stream
import Membercoin.MerkleBlock.PartialMerkleTree
import Membercoin.MerkleBlock.PartialMerkleSerialize
import Membercoin.Script.ScriptNumCodec
import Membercoin.Script.TypeConversion
import Membercoin.Script.PushEncoding
import Membercoin.MerkleBlock.ExtractSafety
import Membercoin.Arith.Compact
import Membercoin.Consensus.TxVerify
import Membercoin.Consensus.VersionBits
import Membercoin.Lib.Worklist
import Membercoin.Mempool.Ancestors
import Membercoin.Filter.FastFilter
import Membercoin.Iblt.Table
import Membercoin.Serialize.VarInt
import Membercoin.Cashaddr.Codec
import Membercoin.Lib.PolyRemainder
import Membercoin.Cashaddr.Bch
import Membercoin.Serialize.Compressor
import Membercoin.Lib.Radix
import Membercoin.Encoding.Base64
import Membercoin.Encoding.Base32
import Membercoin.Encoding.Base58
import Membercoin.Encoding.FixedPoint
import Membercoin.Encoding.Money
import Membercoin.Lib.Limbs
import Membercoin.Arith.Uint256
import Membercoin.Lib.NetSum
import Membercoin.Lib.OptionLoop
import Membercoin.Iblt.Cells
import Membercoin.Iblt.Peel
import Membercoin.Filter.RollingFastFilter
import Membercoin.Filter.Bloom
import Membercoin.Lib.Memory
import Membercoin.Lib.Refinement
import Membercoin.Prevector.Model
import Membercoin.Prevector.Layout
import Membercoin.Prevector.Ops
import Membercoin.Prevector.Store
import Membercoin.Lib.GapCode
import Membercoin.Blockrelay.CompactBlock
import Membercoin.Blockrelay.CompactBlockCodec
import Membercoin.Blockrelay.CompactBlockOrder
import Membercoin.Blockrelay.CompactBlockRelay
import Membercoin.Lib.KeyedFold
import Membercoin.Coins.Cache
import Membercoin.Coins.View
import Membercoin.Coins.Refines
import Membercoin.Coins.Transaction
