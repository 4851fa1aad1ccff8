import Nfd.Lib.LinkedChain
import Nfd.Lib.DescendingSearch
import Nfd.Lib.SwapPop
import Nfd.Name
import Nfd.Table.NameTreeHashtable
import Nfd.Table.NameTreeLayout
import Nfd.Table.NameTreeHashtableOps
import Nfd.Table.NameTree
import Nfd.Table.NameTreeShape
import Nfd.Table.NameTreeRun
import Nfd.Table.NameTreeTables
import Nfd.Table.NameTreeLpm
import Nfd.Lib.PrunedTree
import Nfd.Table.NameTreeIterator
import Nfd.Table.NameTreeEnumeration
import Nfd.Table.Fib
import Nfd.Table.Pit
import Nfd.Lib.Monitor
import Nfd.Table.Cs
import Nfd.Table.CsPolicyLru
import Nfd.Table.CsPolicyPriorityFifo
import Nfd.Table.CsPolicies
import Nfd.Lib.LexOrder
import Nfd.NameOrder
import Nfd.Lib.SearchTree
import Nfd.Table.CsPrefixRange
import Nfd.Lib.Slicing
import Nfd.Face.LpPacket
import Nfd.Face.LpFragmenter
import Nfd.Face.LpReassembler
import Nfd.Lib.FaultRun
import Nfd.Face.Transport
import Nfd.Face.TransportLifeCycle
import Nfd.Lib.SortedMap
import Nfd.Face.LpReliability
import Nfd.Face.GenericLinkService
import Nfd.Face.LinkServiceMtu
import Nfd.Face.IdleAckTimer
import Nfd.Face.LpReliabilityWindow
import Nfd.Mgmt.FaceManager
import Nfd.Tools.CommandDefinition
import Nfd.Face.LpReassemblerInvariant
import Nfd.Table.DeadNonceList
import Nfd.Lib.PrefixCode
import Nfd.Tlv
import Nfd.Face.StreamReceive
import Nfd.Fw.PitEntry
import Nfd.Fw.Forwarder
import Nfd.Fw.SendData
import Nfd.Fw.IncomingData
import Nfd.Lib.BitFlags
import Nfd.Fw.InterestLoop
import Nfd.Fw.StrategyRegistry
import Nfd.Fw.NewNextHop
import Nfd.Table.StrategyChoice
import Nfd.Lib.BitString
import Nfd.Core.Network
import Nfd.Face.NetworkPredicate
import Nfd.Rib.Rib
import Nfd.Rib.FibUpdater
import Nfd.Rib.UpdateQueue
import Nfd.Rib.Readvertise
import Nfd.Table.Cleanup
import Nfd.Table.CleanupRun
import Nfd.Fw.FaceTable
import Nfd.Table.Measurements
import Nfd.Mgmt.FibManager
import Nfd.Lib.SequenceWindow
