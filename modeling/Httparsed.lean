import Httparsed.Lib.Transducer
import Httparsed.Lib.Veto
import Httparsed.Lib.Layout
import Httparsed.Lib.Crash
import Httparsed.Lib.Framing
import Httparsed.Basic
import Httparsed.ParseToken
import Httparsed.Parser
import Httparsed.Machine
import Httparsed.RefineLine
import Httparsed.RefineHead
import Httparsed.RefineParse
import Httparsed.Grammar
import Httparsed.Reads
import Httparsed.ReadsHead
import Httparsed.Observe
import Httparsed.Accept
import Httparsed.Final
import Httparsed.EndOfHead
import Httparsed.Viable
import Httparsed.ViableStatus
import Httparsed.Lines
import Httparsed.Callbacks
import Httparsed.Session
import Httparsed.Resume
import Httparsed.ResumeStart
import Httparsed.RoundTrip
import Httparsed.RoundTripStatus
import Httparsed.Scanners
import Httparsed.Safety
import Httparsed.ErrorCodes
import Httparsed.ErrorCodesStatus
import Httparsed.Delivered
import Httparsed.Arithmetic
import Httparsed.Msg
import Httparsed.MsgOutcome
import Httparsed.MsgResume
import Httparsed.Pico
import Httparsed.PicoScan
import Httparsed.PicoGrammar
import Httparsed.PicoReads
import Httparsed.PicoAccept
import Httparsed.PicoSafety
import Httparsed.PicoAgree
import Httparsed.PicoFinal
import Httparsed.PicoRun
import Httparsed.PicoViable
import Httparsed.PicoChunked
import Httparsed.PicoChunkedRun
import Httparsed.PicoChunkedBody
import Httparsed.Bench
