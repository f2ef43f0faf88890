import LlmTop.Sha256Deviation
import LlmTop.Attribution
import LlmTop.Stamping
import LlmTop.Rejection
import LlmTop.ToolBinding
import LlmTop.RequestKeys
import LlmTop.Concurrency
import LlmTop.TokenMutation
import LlmTop.BinaryRoundTrip
import LlmTop.BinaryTruncation
import LlmTop.BinaryCanonical
import LlmTop.BinaryTransport
import LlmTop.BinaryHeader
import LlmTop.BpeReference
import LlmTop.PretokenSplit
import LlmTop.ClimbingPaths
import LlmTop.Confinement
import LlmTop.Accesses
import LlmTop.ExactlyOnce
import LlmTop.Linearization
import LlmTop.StoreBounds
import LlmTop.ApprovedPlans
import LlmTop.Sessions
import LlmTop.StatementGroups
import LlmTop.StatementKeys
import LlmTop.Tokenizer
import LlmTop.ReplayChecks
import LlmTop.LineEndings
import LlmTop.HeaderFolding
import LlmTop.HeaderAcceptance
import LlmTop.QuotedLines
import LlmTop.WrittenFrames
import LlmTop.BinaryBounds
import LlmTop.ParserBounds
import LlmTop.TopLevelClaims
import LlmTop.PathWalks
import LlmTop.PointerSchemas
import LlmTop.MapStates
import LlmTop.SegmentGlobs
import LlmTop.DiagnosticCounts
import LlmTop.RecoveryHeader
import LlmTop.Compliance
import LlmTop.Measurements
import LlmTop.ParseProgram
import LlmTop.Fuzzer
import LlmTop.WiderSettings
import LlmTop.RecoveryRefusal
import LlmTop.TimeTexts
import LlmTop.RefusedTraces
import LlmTop.AgentIsolation
import LlmTop.Base64Words
import LlmTop.RanksFile
import LlmTop.Integrity
