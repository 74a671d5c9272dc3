import Stress.RunCounts
import Stress.Coverage
import Stress.Denotation
import Stress.Isolation
import Stress.Anomalies
import Stress.Expansion
import Stress.AbnfFiles
import Stress.SocketFactory
import Stress.AbnfString
import Stress.PacketPrinter
import Stress.Views
import Stress.References
import Stress.Parser
import Stress.AnomalyInjector
import Stress.RawView
import Stress.LengthField
import Stress.Base64
import Stress.SocketRead
import Stress.FrameBounds
import Stress.Faults
import Stress.Injection
import Stress.Baseline
import Stress.Verdict
import Stress.FieldValue
import Stress.OutputFile
import Stress.Sharing
import Stress.FaultLog
import Stress.FieldName
import Stress.CoreRules
import Stress.MonitorProtocol
import Stress.ReadLoop
import Stress.Captures
import Stress.Freshness
import Stress.InjectedGrammar
import Stress.RoundTrip
import Stress.DissectedCapture
