import RSX280.Astdcl
import RSX280.Attach
import RSX280.Bcd
import RSX280.Bcdflt
import RSX280.BufferRuns
import RSX280.ChkptRuns
import RSX280.Ckptst
import RSX280.ClkqCancels
import RSX280.ConnectMoves
import RSX280.DebugRuns
import RSX280.DeviceRuns
import RSX280.Directory
import RSX280.EvalModes
import RSX280.Fadd
import RSX280.Farith
import RSX280.FcsRuns
import RSX280.Fdiv
import RSX280.FileDirsRuns
import RSX280.FileMakes
import RSX280.FileOpens
import RSX280.FileTruncs
import RSX280.Flags
import RSX280.Fmul
import RSX280.FpResult
import RSX280.Fpi
import RSX280.FreeCountRuns
import RSX280.IcpRejects
import RSX280.IoKill
import RSX280.KpoolRuns
import RSX280.LbrRuns
import RSX280.LinesCmds
import RSX280.LinesText
import RSX280.Match
import RSX280.Mcopy
import RSX280.Md5
import RSX280.MkdiskBits
import RSX280.MountRuns
import RSX280.Newpar
import RSX280.Newsub
import RSX280.OvlmgrRuns
import RSX280.PacketDamage
import RSX280.PagesRuns
import RSX280.ParsRuns
import RSX280.PfnParse
import RSX280.PoolRuns
import RSX280.Reason
import RSX280.Reld
import RSX280.Request
import RSX280.Resume
import RSX280.Sends
import RSX280.SrchdrRuns
import RSX280.Tfix
import RSX280.Tokens
import RSX280.Tq
import RSX280.TransferEnds
import RSX280.Valtb
import RSX280.VarsRuns
import RSX280.Visible
import RSX280.VmemRuns
import RSX280.Vol180Extends
