import OpenZL.Decompress.HeaderShortcuts
import OpenZL.Wire.FrameLossless
import OpenZL.Compress.Segmenter
import OpenZL.Decompress.AppendInvisible
import OpenZL.Sddl2.Replaying
import OpenZL.Common.StreamRuns
import OpenZL.Sddl2.StructSplit
import OpenZL.Sddl2.Walk
import OpenZL.Common.TableRuns
import OpenZL.Sddl2.Compiler.Precedence
import OpenZL.Codecs.MuxLengthsPaths
import OpenZL.Codecs.LzPaths
import OpenZL.Codecs.PivcoWalk
import OpenZL.Codecs.SparseNum
import OpenZL.Codecs.MergeSortedRoundTrip
import OpenZL.Codecs.ParseIntWrite
import OpenZL.Codecs.PrefixRoundTrip
import OpenZL.Codecs.TokenizeStrings
import OpenZL.Codecs.PartitionRoundTrip
import OpenZL.Shared.Base64
import OpenZL.Codecs.DivideByExact
import OpenZL.Codecs.DispatchNByTagSafe
import OpenZL.Codecs.BitSplitRoundTrip
import OpenZL.Codecs.FlatpackRoundTrip
import OpenZL.Shared.A1cborRoundTrip
import OpenZL.Codecs.SplitByStructPaths
import OpenZL.Codecs.OverlapCopy
import OpenZL.Codecs.SplitByRangeSegments
import OpenZL.Compressor.SetupOrder
