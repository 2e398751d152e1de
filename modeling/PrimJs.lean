import PrimJs.Bytecode.StackSize
import PrimJs.Collections.MapRun
import PrimJs.Collections.WeakEntriesRun
import PrimJs.Gc.CartesianTreeDelete
import PrimJs.Gc.MarkBitmapRun
import PrimJs.Gc.MemorySlotsRun
import PrimJs.Gc.PageGroupsRun
import PrimJs.Gc.PageMapRun
import PrimJs.Gc.PointerSetRun
import PrimJs.Gc.RunSlotsRun
import PrimJs.Gc.SpaceRun
import PrimJs.Inspector.BreakpointRun
import PrimJs.Inspector.PossibleBreakpoints
import PrimJs.Napi.CodeCacheBudget
import PrimJs.Napi.CodeCacheDirty
import PrimJs.Napi.CodeCacheFormat
import PrimJs.Numeric.BigIntCompare
import PrimJs.Numeric.BigIntFromString
import PrimJs.Numeric.BigIntShift
import PrimJs.Optimizer.ConstFoldRun
import PrimJs.Optimizer.DeadStoreRun
import PrimJs.Optimizer.NopStrip
import PrimJs.Optimizer.PostPipeline
import PrimJs.Regexp.CaptureGroups
import PrimJs.Regexp.CaptureIndex
import PrimJs.Regexp.CharClassSpec
import PrimJs.Runtime.AtomStoreUtf8
import PrimJs.Serialize.AccountedObjects
import PrimJs.Serialize.BigIntRoundTrip
import PrimJs.Serialize.FunctionMetadata
