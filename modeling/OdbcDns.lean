import OdbcDns.Access
import OdbcDns.CommandLine
import OdbcDns.DNSServer
import OdbcDns.Database
import OdbcDns.Lib.Act
import OdbcDns.Lib.Logged
import OdbcDns.Lib.Refines
import OdbcDns.Lib.Rfc1035
import OdbcDns.Lib.Slice
import OdbcDns.Lib.Threads
import OdbcDns.Lib.Transition
import OdbcDns.Lib.UnionAll
import OdbcDns.Lib.Walk
import OdbcDns.LogLines
import OdbcDns.Message
import OdbcDns.Odbc
import OdbcDns.Proofs.AddressData
import OdbcDns.Proofs.Addresses
import OdbcDns.Proofs.AnswerCount
import OdbcDns.Proofs.AnswerSection
import OdbcDns.Proofs.Answers
import OdbcDns.Proofs.AskedQuestion
import OdbcDns.Proofs.Bytes
import OdbcDns.Proofs.CacheRoundTrip
import OdbcDns.Proofs.CachedRows
import OdbcDns.Proofs.Chains
import OdbcDns.Proofs.CnameWalk
import OdbcDns.Proofs.CommandLine
import OdbcDns.Proofs.Comparison
import OdbcDns.Proofs.Compression
import OdbcDns.Proofs.Contained
import OdbcDns.Proofs.Descriptions
import OdbcDns.Proofs.DistinctRows
import OdbcDns.Proofs.Expansion
import OdbcDns.Proofs.FailureCodes
import OdbcDns.Proofs.Faults
import OdbcDns.Proofs.Forwarding
import OdbcDns.Proofs.Framing
import OdbcDns.Proofs.Header
import OdbcDns.Proofs.History
import OdbcDns.Proofs.Interleaving
import OdbcDns.Proofs.LocalReply
import OdbcDns.Proofs.Logging
import OdbcDns.Proofs.Lookup
import OdbcDns.Proofs.Matching
import OdbcDns.Proofs.NameAcceptance
import OdbcDns.Proofs.NameRoundTrip
import OdbcDns.Proofs.NameTermination
import OdbcDns.Proofs.Names
import OdbcDns.Proofs.Noting
import OdbcDns.Proofs.OdbcDriver
import OdbcDns.Proofs.OdbcRefinement
import OdbcDns.Proofs.OdbcRuns
import OdbcDns.Proofs.OutputBuffer
import OdbcDns.Proofs.Overfull
import OdbcDns.Proofs.Provenance
import OdbcDns.Proofs.QuestionTypes
import OdbcDns.Proofs.Questions
import OdbcDns.Proofs.QueueSafety
import OdbcDns.Proofs.RecordEnds
import OdbcDns.Proofs.RecordOutcomes
import OdbcDns.Proofs.RecordReads
import OdbcDns.Proofs.Records
import OdbcDns.Proofs.Reencoding
import OdbcDns.Proofs.Relay
import OdbcDns.Proofs.RelayedLength
import OdbcDns.Proofs.Relaying
import OdbcDns.Proofs.Replies
import OdbcDns.Proofs.ReplyMatching
import OdbcDns.Proofs.RequestReads
import OdbcDns.Proofs.Retention
import OdbcDns.Proofs.RoundTrip
import OdbcDns.Proofs.ServedTTL
import OdbcDns.Proofs.ServerPackets
import OdbcDns.Proofs.ServerProgress
import OdbcDns.Proofs.ServerRefinement
import OdbcDns.Proofs.ServerRuns
import OdbcDns.Proofs.ServerService
import OdbcDns.Proofs.ServerSteps
import OdbcDns.Proofs.Service
import OdbcDns.Proofs.SeveralQuestions
import OdbcDns.Proofs.ShutdownWaits
import OdbcDns.Proofs.Sizes
import OdbcDns.Proofs.Statements
import OdbcDns.Proofs.TracedParser
import OdbcDns.Proofs.Transactions
import OdbcDns.Proofs.Truncation
import OdbcDns.Proofs.Turns
import OdbcDns.Proofs.UpstreamTraffic
import OdbcDns.Query
import OdbcDns.RData
import OdbcDns.RecordAccess
import OdbcDns.RequestQueue
import OdbcDns.Resolver
import OdbcDns.ResourceRecord
import OdbcDns.Runtime
import OdbcDns.Server
import OdbcDns.SharedTable
import OdbcDns.Shutdown
import OdbcDns.Util
