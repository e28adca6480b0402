import StevenProgram.Lib.BlockFold
import StevenProgram.Lib.Bytes
import StevenProgram.Lib.Hmac
import StevenProgram.Hash.Digest
import StevenProgram.Lib.Words
import StevenProgram.Lib.SineTable
import StevenProgram.Lib.Rfc1321
import StevenProgram.Hash.Md5Compress
import StevenProgram.Lib.Fips180
import StevenProgram.Lib.Window
import StevenProgram.Hash.Sha1Compress
import StevenProgram.Hash.BlockLoop
import StevenProgram.Hash.HashHmac
import StevenProgram.Hash.HmacRuns
import StevenProgram.Hash.EvpHmac
import StevenProgram.Lib.TransSys
import StevenProgram.Lib.NodeList
import StevenProgram.Timer.TimeVal
import StevenProgram.Timer.TimerList
import StevenProgram.Timer.System
import StevenProgram.Timer.Deadlines
import StevenProgram.Timer.Timeout
import StevenProgram.Asn1.Parser
import StevenProgram.Asn1.Containment
import StevenProgram.Lib.Der
import StevenProgram.Lib.Emit
import StevenProgram.Asn1.Lines
import StevenProgram.Asn1.CertObjects
import StevenProgram.Asn1.CertWalk
import StevenProgram.Asn1.Walk
import StevenProgram.Lib.Scan
import StevenProgram.Cred.CertX509
import StevenProgram.Cred.CaCerts
import StevenProgram.Lib.CString
import StevenProgram.Lib.TextLines
import StevenProgram.Common.TextStore
import StevenProgram.Lex.Lexparser
import StevenProgram.Lex.Tokens
import StevenProgram.Lex.FetchLines
import StevenProgram.Cred.Secrets
import StevenProgram.Lex.Pem
import StevenProgram.Lex.PemLines
import StevenProgram.Lib.Base64
import StevenProgram.Lex.PemFaults
import StevenProgram.Lex.PemInPlace
import StevenProgram.Lex.PemTrailer
import StevenProgram.Lex.PemRoundTrip
import StevenProgram.Lex.Base64Buffer
import StevenProgram.Lib.Ring
import StevenProgram.Lib.Dict
import StevenProgram.Table.HashTable
import StevenProgram.Table.Bins
import StevenProgram.Lib.Residue
import StevenProgram.Table.BinIndex
import StevenProgram.Table.Chains
import StevenProgram.Table.Calls
import StevenProgram.Table.Runs
import StevenProgram.Table.Dictionary
import StevenProgram.Table.Mirror
import StevenProgram.Table.Buffers
import StevenProgram.Net.Engines
import StevenProgram.Net.Dispatch
import StevenProgram.Net.Polled
import StevenProgram.Net.Rounds
import StevenProgram.Sync.RwLock
import StevenProgram.Crypt.SymmCrypto
import StevenProgram.Lib.BlockMode
import StevenProgram.Crypt.FileCrypt
import StevenProgram.Crypt.EncFile
import StevenProgram.Someip.ServiceDatabase
import StevenProgram.Someip.RawList
import StevenProgram.Cred.SubjectString
import StevenProgram.Cred.CertDir
import StevenProgram.Asn1.Failures
import StevenProgram.Asn1.Length
import StevenProgram.Asn1.Detect
import StevenProgram.Cred.Fingerprint
import StevenProgram.Lib.Records
import StevenProgram.Xfrm.Pfkey
import StevenProgram.Lib.RequestReply
import StevenProgram.Xfrm.PfkeyExt
import StevenProgram.Xfrm.Netlink
import StevenProgram.Xfrm.NetlinkWalk
import StevenProgram.Lib.TreePath
import StevenProgram.Lib.Balance
import StevenProgram.AvlTree.AvlTreeNode
import StevenProgram.AvlTree.Layout
import StevenProgram.AvlTree.Rebalance
import StevenProgram.AvlTree.Descent
import StevenProgram.Lib.SortedMap
import StevenProgram.AvlTree.Insertion
import StevenProgram.AvlTree.Removal
import StevenProgram.AvlTree.Replacement
import StevenProgram.AvlTree.Traversal
import StevenProgram.AvlTree.Integrity
import StevenProgram.AvlTree.Calls
import StevenProgram.AvlTree.Limits
import StevenProgram.Lib.PrimeRoots
import StevenProgram.Lib.Fips180Sha2
import StevenProgram.Hash.Sha2Compress
import StevenProgram.Lib.Monitor
import StevenProgram.Lib.Fair
import StevenProgram.Sync.MonitoredMutex
import StevenProgram.Net.EngineThread
import StevenProgram.Net.EngineLife
import StevenProgram.Timer.TimerThread
import StevenProgram.Timer.TimerLife
import StevenProgram.Lib.Gather
import StevenProgram.Cred.CertStore
import StevenProgram.Cred.LoadCerts
import StevenProgram.Cred.PrivateKeys
