import ChaosVpn.Library.Runs
import ChaosVpn.Library.Loops
import ChaosVpn.Library.TextLines
import ChaosVpn.Library.PrefixNetworks
import ChaosVpn.CStrings
import ChaosVpn.StringBuffer
import ChaosVpn.HttpReceive
import ChaosVpn.HttpHeaderLines
import ChaosVpn.HttpSegmentation
import ChaosVpn.HttpTermination
import ChaosVpn.Libc
import ChaosVpn.AddrMask
import ChaosVpn.SubnetMatch
import ChaosVpn.Settings
import ChaosVpn.StrNatCmp
import ChaosVpn.OldDaemon
import ChaosVpn.PeerParser
import ChaosVpn.ArArchive
import ChaosVpn.Crypto
import ChaosVpn.RequestConfig
import ChaosVpn.FetchAndApply
import ChaosVpn.UpdateRuns
import ChaosVpn.PeerListRuns
import ChaosVpn.SignatureGate
import ChaosVpn.RejectedDownloads
import ChaosVpn.RouteScript
import ChaosVpn.RouteSequence
import ChaosVpn.ArMembers
import ChaosVpn.BackendArchive
import ChaosVpn.BackendText
import ChaosVpn.BackendParser
import ChaosVpn.Worker
import ChaosVpn.SingleTincd
import ChaosVpn.RestartOrder
import ChaosVpn.DeathWatch
import ChaosVpn.ParserSections
import ChaosVpn.HostFile
import ChaosVpn.KeyBlocks
import ChaosVpn.SectionIsolation
import ChaosVpn.SubnetTexts
import ChaosVpn.SubnetPrinting
import ChaosVpn.ArAccess
import ChaosVpn.ArEncoding
import ChaosVpn.SubnetScript
import ChaosVpn.Whitelist
import ChaosVpn.ExcludedNodes
import ChaosVpn.HostsDirectory
import ChaosVpn.RemovedPeers
import ChaosVpn.TincConf
import ChaosVpn.RestartRoutes
import ChaosVpn.HttpParseUrl
import ChaosVpn.NotModified
import ChaosVpn.FileCopy
import ChaosVpn.HostFilePath
import ChaosVpn.Library.Traced
import ChaosVpn.VersionChecks
import ChaosVpn.FileSystem
import ChaosVpn.MkdirP
import ChaosVpn.EmptyDirectory
import ChaosVpn.Backup
import ChaosVpn.Library.LongestMatch
import ChaosVpn.ConfigLexer
import ChaosVpn.ConfigGrammar
import ChaosVpn.ConfigStrings
import ChaosVpn.MisspeltVariables
import ChaosVpn.StringMemory
import ChaosVpn.StringRuns
import ChaosVpn.StringSprintf
import ChaosVpn.StringSafety
import ChaosVpn.KeyFiles
import ChaosVpn.PortLines
import ChaosVpn.RouteWeights
import ChaosVpn.Library.ExtendedRegex
import ChaosVpn.SubnetClasses
import ChaosVpn.WorkerLog
import ChaosVpn.Library.LinkedNodes
import ChaosVpn.Lists
import ChaosVpn.ListRuns
import ChaosVpn.ListLoops
import ChaosVpn.NaturalOrder
import ChaosVpn.VersionOrder
import ChaosVpn.Library.Measures
import ChaosVpn.MainLoop
import ChaosVpn.MainLoopRuns
import ChaosVpn.SignalHandling
import ChaosVpn.Library.Channels
import ChaosVpn.WholeClient
import ChaosVpn.Delivery
import ChaosVpn.Outages
import ChaosVpn.PidFile
import ChaosVpn.Library.Ownership
import ChaosVpn.ParserHeap
import ChaosVpn.ParserMemory
import ChaosVpn.ParserOwnership
import ChaosVpn.PeerOwnership
import ChaosVpn.ParserRefinement
import ChaosVpn.ParserRounds
import ChaosVpn.ConfigFiles
import ChaosVpn.ConfigInit
