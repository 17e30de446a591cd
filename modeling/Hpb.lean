import Hpb.MiniTable.Table
import Hpb.MiniDescriptor.LayoutSound
import Hpb.MiniDescriptor.Base92Spec
import Hpb.MiniDescriptor.EnumTable
import Hpb.MiniDescriptor.Link
import Hpb.Reflection.FileLayout
import Hpb.Reflection.AddFileSpec
import Hpb.Message.Internal
import Hpb.Message.CopyEqual
import Hpb.Util.CompareSpec
import Hpb.Util.SortArray
import Hpb.Wire.EpsCopyInputStream
import Hpb.Wire.FastLength
import Hpb.Hash.IntTableCalls
import Hpb.Hash.Compact
import Hpb.Collections.MapAtomic
import Hpb.Lib.Forest
import Hpb.Mem.ArenaSeq
import Hpb.Mem.ArenaFixed
import Hpb.Mem.ArenaSize
import Hpb.Collections.ArrayCalls
import Hpb.MiniDescriptor.MessageRoundTrip
import Hpb.MiniDescriptor.NarrowInts
import Hpb.Lib.Metered
import Hpb.Wire.DecodeDepth
import Hpb.Wire.DecodeMerge
import Hpb.Wire.DecodeRequired
import Hpb.Wire.EpsCopyAliasing
import Hpb.Json.Base64
import Hpb.Json.Duration
import Hpb.Json.FieldMask
import Hpb.Json.TimestampText
import Hpb.Message.RequiredPaths
import Hpb.Message.DiscardUnknown
import Hpb.Hpbc.UsedFields
import Hpb.Hpbc.FastDecodeTable
import Hpb.Text.String
import Hpb.Text.UnknownRight
import Hpb.Message.PromoteLoop
import Hpb.Message.Stored
import Hpb.MiniDescriptor.Numbers
import Hpb.MiniDescriptor.Alignment
import Hpb.Reflection.Ident
import Hpb.Reflection.Resolve
import Hpb.Reflection.Unescape
import Hpb.Reflection.Indexes
import Hpb.MiniTable.Oneof
import Hpb.MiniTable.Compat
import Hpb.Reflection.RegistryAtomic
import Hpb.Reflection.EnumNumbers
import Hpb.Wire.EncodeText
