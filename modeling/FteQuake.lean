import FteQuake.Common.Framing
import FteQuake.Common.Bits
import FteQuake.Common.UsercmdFte
import FteQuake.Common.JsonRfc
import FteQuake.Common.QwDelta
import FteQuake.Common.FteDelta
import FteQuake.Qclib.HeapCalls
import FteQuake.Qclib.Sandbox
import FteQuake.Qclib.CallRun
import FteQuake.Fs.CleanPath
import FteQuake.Qclib.FinaliseFunction
import FteQuake.Fs.Automount
import FteQuake.Fs.ZipMember
import FteQuake.Common.PmSource
import FteQuake.Common.Cvars
import FteQuake.Client.DownloadResume
import FteQuake.Net.TcpReceive
import FteQuake.Tv.MvdMessages
import FteQuake.Common.JsonBody
import FteQuake.Common.InfoValue
import FteQuake.Tv.PacketEntities
import FteQuake.Client.Packages
import FteQuake.Common.Bih
import FteQuake.Common.SizebufBounds
import FteQuake.Common.SolidSize
import FteQuake.Common.Coord
import FteQuake.Common.CleanUpPath
import FteQuake.Common.RequireExtension
import FteQuake.Common.Base64
import FteQuake.Net.NetchanReliable
import FteQuake.Server.ResendLog
import FteQuake.Qclib.Edicts
import FteQuake.Qclib.EntityLump
import FteQuake.Common.CbufInsert
import FteQuake.Qclib.EntityDump
import FteQuake.Qclib.NativePtr
import FteQuake.Common.ExpandMeaning
import FteQuake.Common.IfExpression
import FteQuake.Qclib.IntegerOps
import FteQuake.Qclib.IntegerOps
import FteQuake.Net.IceCandidate
import FteQuake.Qclib.SharedGlobals
import FteQuake.Net.TurnPermission
import FteQuake.Net.TurnTcp
import FteQuake.Net.TurnTcp
import FteQuake.Qclib.FieldVars
import FteQuake.Net.StunAttributes
import FteQuake.Net.SctpDecode
import FteQuake.Common.VisModes
import FteQuake.Fs.AddonList
import FteQuake.Common.BihBuild
import FteQuake.Tv.ProxyBuffer
import FteQuake.Qclib.HashTable
import FteQuake.Qclib.PrecompilerIf
import FteQuake.Qclib.LexNumber
import FteQuake.Net.CandidateBroker
import FteQuake.Lib.AlternatingBit
