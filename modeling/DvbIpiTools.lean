import DvbIpiTools.Bim.DecoderInit.RoundTrip
import DvbIpiTools.Bim.Fuu.Consistency
import DvbIpiTools.Bim.Index.BuildCheck
import DvbIpiTools.Net.JitbufRuns
import DvbIpiTools.Net.DvbstpComplete
import DvbIpiTools.Fccret.RetClientOutput
import DvbIpiTools.Demux.Fec2022EndToEnd
import DvbIpiTools.Bim.AccessUnit.RoundTrip
import DvbIpiTools.Fccret.RtxSessionTable
import DvbIpiTools.Fccret.ChannelTableRuns
import DvbIpiTools.Fccret.CaptureExact
import DvbIpiTools.Tvhead.EitRuns
import DvbIpiTools.Tvhead.ContinuityRuns
import DvbIpiTools.Cas.SimulcryptFraming
import DvbIpiTools.Cas.BissCaKeys
import DvbIpiTools.Dipixy.SegSnapshots
import DvbIpiTools.Dipixy.SegNumbers
import DvbIpiTools.Dipixy.QsbrGuards
import DvbIpiTools.Helper.ByteRingRuns
import DvbIpiTools.Dipixy.WsMessages
import DvbIpiTools.Metrics.Transport
import DvbIpiTools.Dipixy.WsClientsRuns
import DvbIpiTools.Bim.Xsd.PatternRuns
import DvbIpiTools.Net.Rtmp.RoundTrip
import DvbIpiTools.Bim.Codec.IntegerRoundTrip
import DvbIpiTools.Bim.Codec.LocatorParse
import DvbIpiTools.Bim.Codec.M7RoundTrip
import DvbIpiTools.Bim.Codec.Decode.Ends
import DvbIpiTools.Demux.Fec2022Matrix
import DvbIpiTools.Fccret.FccClient
import DvbIpiTools.Fccret.RetClientQueue
import DvbIpiTools.Tvhead.TimemapLaws
import DvbIpiTools.Fccret.RetNack
import DvbIpiTools.Cas.BissCaSections
import DvbIpiTools.Demux.Tspack
import DvbIpiTools.Fccret.RapCache
import DvbIpiTools.Cas.Biss1e
import DvbIpiTools.Tvhead.Scte35Transparent
import DvbIpiTools.Tvhead.PesstampLaws
import DvbIpiTools.Dash.Timeline
import DvbIpiTools.Cas.EmmgQueue
import DvbIpiTools.Bim.Container
import DvbIpiTools.Bim.Codec.Lax.InStep
import DvbIpiTools.Helper.Calendar
import DvbIpiTools.Bim.Fuu.RationalOrder
import DvbIpiTools.Demux.SeiStrip
import DvbIpiTools.Radiohead.RadioClock
import DvbIpiTools.Bim.Codec.DateTimes
import DvbIpiTools.Demux.Crc32Burst
