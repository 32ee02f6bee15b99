import SecurityAudits.Lib.Run
import SecurityAudits.Lib.Lock
import SecurityAudits.Lib.Linearize
import SecurityAudits.Lib.Memory
import SecurityAudits.Lib.Reader
import SecurityAudits.Lib.FileTree
import SecurityAudits.Lib.SortedMap
import SecurityAudits.Lib.JavaUrl
import SecurityAudits.Lib.LinkedList
import SecurityAudits.Lib.Framing
import SecurityAudits.Lib.Grants
import SecurityAudits.Lib.Marking
import SecurityAudits.Lib.Escape
import SecurityAudits.Lib.CString
import SecurityAudits.Lib.Memo
import SecurityAudits.Lib.Csv
import SecurityAudits.Lib.Traversal
import SecurityAudits.Lib.Comparator
import SecurityAudits.Lib.Checked
import SecurityAudits.Lib.Circular
import SecurityAudits.Lib.JsonString
import SecurityAudits.Lib.Expansion
import SecurityAudits.Lib.Selection
import SecurityAudits.Lib.Fifo
import SecurityAudits.Lib.Lines
import SecurityAudits.Lib.Writing
import SecurityAudits.Lib.Monitor
import SecurityAudits.Lib.BigEndian
import SecurityAudits.Lib.Labels
import SecurityAudits.Lib.Quoted
import SecurityAudits.Lib.Window
import SecurityAudits.OpenbsdKernel.MsgCopyout
import SecurityAudits.OpenbsdKernel.SlUncompress
import SecurityAudits.OpenbsdKernel.ByteLifetime
import SecurityAudits.Nginx.GeoBase
import SecurityAudits.Nginx.StcoAtom
import SecurityAudits.Nginx.GeoLayout
import SecurityAudits.Nginx.GeoSiblings
import SecurityAudits.Caddy.HashCache
import SecurityAudits.Viceroy.ObjectStore
import SecurityAudits.Viceroy.Serializable
import SecurityAudits.Viceroy.HeaderValues
import SecurityAudits.WasmerWasix.Factory
import SecurityAudits.WasmerWasix.Wakeups
import SecurityAudits.WasmerWasix.ControlPlane
import SecurityAudits.WasmerWasix.BinFactory
import SecurityAudits.BunRust.Emphasis
import SecurityAudits.OpenbsdLibc.TypeTable
import SecurityAudits.OpenbsdLibexec.YubikeyLogin
import SecurityAudits.OpenbsdLibexec.SpamdSetup
import SecurityAudits.OpenbsdLibexec.SpamdFailures
import SecurityAudits.OpenbsdBin.Ikev2Pld
import SecurityAudits.OpenbsdBin.ItReference
import SecurityAudits.OpenbsdBin.DhcpOptions
import SecurityAudits.OpenbsdBin.IpOverlap
import SecurityAudits.OpenbsdBin.Mdstore
import SecurityAudits.OpenbsdBin.Exports
import SecurityAudits.OpenbsdBin.PrintDump
import SecurityAudits.OpenbsdBin.ItCmp
import SecurityAudits.OpenbsdBin.SuffAddSrc
import SecurityAudits.OpenbsdBin.ShowSymtab
import SecurityAudits.OpenbsdBin.OldLesskey
import SecurityAudits.OpenbsdBin.RdistResponse
import SecurityAudits.BunRust.Valkey
import SecurityAudits.BunRust.ValkeyStream
import SecurityAudits.BunRust.RedirectHeaders
import SecurityAudits.BunRust.RefDefs
import SecurityAudits.LolHtml.TreeBuilder
import SecurityAudits.LolHtml.StackLimit
import SecurityAudits.LolHtml.ChildCounters
import SecurityAudits.ZigStdlib.Tar
import SecurityAudits.ZigStdlib.SymlinkTarget
import SecurityAudits.OpenbsdPkgAdd.Ustar
import SecurityAudits.BunnyCdn.TokenSigner
import SecurityAudits.BunnycdnCli.CsvEscape
import SecurityAudits.BunnycdnCli.EnvPull
import SecurityAudits.RustStdlib.DirBuff
import SecurityAudits.RustStdlib.DirEntries
import SecurityAudits.RustStdlib.Leb128
import SecurityAudits.RustStdlib.UnsafeList
import SecurityAudits.RustStdlib.ArmLinux
import SecurityAudits.RustStdlib.XousCondvar
import SecurityAudits.RustStdlib.XousNotifyOne
import SecurityAudits.RustStdlib.JunitXml
import SecurityAudits.RustStdlib.SpinMutex
import SecurityAudits.RustStdlib.LazyStorage
import SecurityAudits.RustStdlib.XousAccept
import SecurityAudits.RustStdlib.VxworksSpawn
import SecurityAudits.PqConnect.ReplayCache
import SecurityAudits.PqConnect.CookieManager
import SecurityAudits.DlangPhobos.ScopedAllocator
import SecurityAudits.DlangPhobos.LazyCache
import SecurityAudits.DlangPhobos.FreeTree
import SecurityAudits.DlangPhobos.AffixAllocator
import SecurityAudits.DlangPhobos.ArrayInsert
import SecurityAudits.DlangPhobos.Advapi32
import SecurityAudits.DlangPhobos.MatcherRefs
import SecurityAudits.Proftpd.Privs
import SecurityAudits.H2o.QpackDecoder
import SecurityAudits.H2o.DatagramFlowId
import SecurityAudits.H2o.StatusReceivers
import SecurityAudits.H2o.JsonEscape
import SecurityAudits.H2o.UdpEgress
import SecurityAudits.H2o.RedisReply
import SecurityAudits.H2o.Http1Informational
import SecurityAudits.Libressl.ClientHelloHash
import SecurityAudits.Libressl.MimeBound
import SecurityAudits.Zlib.Gzlog
import SecurityAudits.Zlib.Miniunz
import SecurityAudits.Zlib.ExtraField
import SecurityAudits.Zlib.RemoveExtraInfo
import SecurityAudits.ApacheHttpd.StreamPriority
import SecurityAudits.ApacheHttpd.Freshness
import SecurityAudits.ApacheHttpd.Metafix
import SecurityAudits.GoCrypto.HandshakeContext
import SecurityAudits.Quicly.RetiredCids
import SecurityAudits.OpenSsh.IdNameCache
import SecurityAudits.Curl.StdinBridge
import SecurityAudits.WasmtimeWasi.FdRenumber
import SecurityAudits.GoCrypto.SealNonce
import SecurityAudits.Libressl.NcDns
import SecurityAudits.Proftpd.ListR
import SecurityAudits.Vsftpd.AlpnCallback
import SecurityAudits.Pushpin.JsonpCallback
import SecurityAudits.H2o.InformationalRejected
import SecurityAudits.BunRust.GithubActionProperty
import SecurityAudits.OpenbsdBin.PathChecks
