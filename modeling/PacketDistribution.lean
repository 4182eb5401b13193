import PacketDistribution.Lib.Machine
import PacketDistribution.Lib.Attacker
import PacketDistribution.Lib.Double
import PacketDistribution.Lib.Percent
import PacketDistribution.Lib.Stdio
import PacketDistribution.Lib.FileSystem
import PacketDistribution.Lib.TextStream
import PacketDistribution.Mql.SerializeTheorems
import PacketDistribution.Packets.Crypto
import PacketDistribution.Packets.Network
import PacketDistribution.Session.Connection
import PacketDistribution.Session.ConnectionTheorems
import PacketDistribution.Session.SyncTheorems
import PacketDistribution.Session.AgreementTheorems
import PacketDistribution.Session.EchoTheorems
import PacketDistribution.Session.EchoTextTheorems
import PacketDistribution.Session.HandshakeTheorems
import PacketDistribution.Session.ResponseTheorems
import PacketDistribution.Session.Call
import PacketDistribution.Session.FailClosedTheorems
import PacketDistribution.Session.AtomicTheorems
import PacketDistribution.Session.CourseTheorems
import PacketDistribution.Session.ProgressTheorems
import PacketDistribution.Session.Log
import PacketDistribution.Session.LogTheorems
import PacketDistribution.Session.Symbolic
import PacketDistribution.Session.SymbolicTheorems
import PacketDistribution.Session.SecrecyTheorems
import PacketDistribution.Server.Acceptor
import PacketDistribution.Server.AcceptorTheorems
import PacketDistribution.Server.Threads
import PacketDistribution.Server.ThreadsTheorems
import PacketDistribution.Keys.Keygen
import PacketDistribution.Keys.WriterTheorems
import PacketDistribution.Keys.MergedTheorems
import PacketDistribution.Keys.ReadKeyTheorems
import PacketDistribution.Keys.NoLossTheorems
import PacketDistribution.Keys.ContentTheorems
import PacketDistribution.Keys.RefusalTheorems
import PacketDistribution.Keys.HistoryTheorems
import PacketDistribution.Keys.DeploymentTheorems
import PacketDistribution.Keys.Generation
import PacketDistribution.Keys.GenerationTheorems
import PacketDistribution.Node.NodeInfo
import PacketDistribution.Node.MountScanTheorems
import PacketDistribution.Node.DriveScanTheorems
import PacketDistribution.Node.MemoryLoadTheorems
import PacketDistribution.Node.CpuLoadTheorems
import PacketDistribution.Node.Counts
import PacketDistribution.Node.CountsTheorems
