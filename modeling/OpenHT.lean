import OpenHT.Host.LinkSafety
import OpenHT.Host.HaltLoop
import OpenHT.Lib.Ring
import OpenHT.Host.Step
import OpenHT.Host.Conservation
import OpenHT.Host.Calls
import OpenHT.Host.Returns
import OpenHT.Lib.Bytes
import OpenHT.Lib.Distinct
import OpenHT.Lib.Wrap
import OpenHT.Sysc.BlockRam
import OpenHT.Sysc.MemTrace
import OpenHT.Sysc.Que
import OpenHT.Sysc.TraceRecord
import OpenHT.Sysc.TraceRound
import OpenHT.Htl.Directive
import OpenHT.Lib.Ledger
import OpenHT.Lib.Wait
import OpenHT.Sysc.BankInv
import OpenHT.Sysc.BankServe
import OpenHT.Sysc.RndMem
import OpenHT.Sysc.RndServe
import OpenHT.Sysc.RndSerial
import OpenHT.Sysc.ReadOwnWrite
import OpenHT.Htc.DoContinue
import OpenHT.Htl.CExpr
import OpenHT.Htl.Cycle
import OpenHT.Htl.GroupSelect
import OpenHT.Htl.Macro
import OpenHT.Htl.Sound
import OpenHT.Htl.IfArith
import OpenHT.HtvClang.SwitchBreaks
import OpenHT.Htl.HtdEnds
import OpenHT.Htl.Record
import OpenHT.Htfe.ConstOps
import OpenHT.Htfe.FoldConst
import OpenHT.Htfe.JumpRewrite
import OpenHT.Htfe.ReturnRewrite
import OpenHT.Htfe.SwitchParse
import OpenHT.Htfe.SwitchRun
import OpenHT.Htfe.QueStmt
import OpenHT.Htfe.QueRun
import OpenHT.Htfe.SequenceRules
import OpenHT.Htfe.ConstVarParse
import OpenHT.Htfe.ConstVarRun
import OpenHT.Htfe.ConstVarSound
import OpenHT.Vex.StatementRun
import OpenHT.Htl.DsnInfo
import OpenHT.Sysc.QueReset
import OpenHT.Sysc.AddrRange
import OpenHT.Htl.PackedWidth
import OpenHT.Htl.StripSound
import OpenHT.Htl.MacroArgsRun
import OpenHT.Sysc.MemOrder
import OpenHT.Htfe.RamWriteSound
import OpenHT.Htl.TokenValue
import OpenHT.Htl.LineReader
import OpenHT.Htfe.MinWidth
import OpenHT.Htl.TypeDefs
import OpenHT.Htfe.EvalConst
import OpenHT.Htc.FlattenCommas
import OpenHT.Htc.ExpandRun
import OpenHT.Htl.SpanningFields
import OpenHT.Htfe.SigWidthBound
import OpenHT.Vex.ParseEnds
import OpenHT.Htfe.LinePos
import OpenHT.Htfe.ForPlayback
import OpenHT.Htfe.ForReplay
import OpenHT.Htfe.ForUnroll
import OpenHT.Htfe.FuncList
import OpenHT.HtvClang.UniqueName
import OpenHT.Lib.Odometer
import OpenHT.Htfe.DimenIter
import OpenHT.Htfe.ArrayElems
import OpenHT.Htfe.RefInfo
import OpenHT.Htfe.VarInit
import OpenHT.Htfe.VarInitSound
import OpenHT.Htfe.VarInitState
import OpenHT.Htfe.WidthRules
import OpenHT.Htfe.Literals
import OpenHT.Htl.MsgIntfPath
import OpenHT.Host.MemSound
import OpenHT.Htfe.ConstExprSound
import OpenHT.Htfe.ConstAgree
import OpenHT.Htfe.MemTypes
import OpenHT.Htfe.RamSections
import OpenHT.Htfe.StructLayout
