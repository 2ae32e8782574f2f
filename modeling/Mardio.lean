import Mardio.Lib.Runs
import Mardio.Lib.TwoRuns
import Mardio.Lib.Fifo
import Mardio.Lib.CounterRing
import Mardio.Lib.ByteMem
import Mardio.Lib.Orbits
import Mardio.Lib.FixedPoint
import Mardio.Lib.Infix
import Mardio.Lib.LastCall
import Mardio.Lib.BitString
import Mardio.Lib.Crc
import Mardio.Lib.Cursor
import Mardio.Lib.Simulation
import Mardio.Libc
import Mardio.Id3Tag
import Mardio.Snd
import Mardio.IoBuffer
import Mardio.IoFifo
import Mardio.Libmad
import Mardio.LibmadStream
import Mardio.LibmadSpace
import Mardio.FrameFit
import Mardio.Stm32Sound
import Mardio.Lcd
import Mardio.Framebuffer
import Mardio.Fs
import Mardio.FsSpec
import Mardio.ResourceFiles
import Mardio.ResourceNames
import Mardio.Stm32Fs
import Mardio.HandleChecks
import Mardio.HandleTables
import Mardio.Interference
import Mardio.Net
import Mardio.LinuxSound
import Mardio.SoundFormat
import Mardio.Player
import Mardio.LcdTimer
import Mardio.Samples
import Mardio.TagSkip
import Mardio.SinkLength
import Mardio.PlayerInv
import Mardio.HandleAccount
import Mardio.Frames
import Mardio.NetOwner
import Mardio.Deadlock
import Mardio.EndOfFile
import Mardio.RiffPayload
import Mardio.RiffBounds
import Mardio.RiffTermination
import Mardio.RiffHeader
import Mardio.Salloc
import Mardio.SlotSafety
import Mardio.SlotContract
import Mardio.DecoderPool
import Mardio.Stm32Net
import Mardio.Pbuf
import Mardio.HttpResponse
import Mardio.Producers
import Mardio.StaleCallback
import Mardio.PcbValid
import Mardio.RemoteClose
import Mardio.Event
import Mardio.CounterWrap
import Mardio.Cmd
import Mardio.TokenLines
import Mardio.Words
import Mardio.Console
import Mardio.Commands
import Mardio.Url
import Mardio.Xprintf
import Mardio.HttpRequest
import Mardio.Shell
import Mardio.EventLoop
import Mardio.Volume
import Mardio.DottedQuad
import Mardio.LineEditing
import Mardio.PlayArgument
import Mardio.MadBit
import Mardio.MadTimer
import Mardio.MadHeader
import Mardio.MadSync
import Mardio.MadSideInfo
import Mardio.MadReservoir
import Mardio.MadLoop
import Mardio.DecoderRun
import Mardio.StreamPlace
import Mardio.Numerals
