import AppleMCX.Core.CmdExec
import AppleMCX.Core.CmdFraming
import AppleMCX.Core.CmdSlots
import AppleMCX.Core.DbSlots
import AppleMCX.Core.EventQueue
import AppleMCX.Core.FwPagesGive
import AppleMCX.Core.FwPagesReclaim
import AppleMCX.Core.FwPagesScheduling
import AppleMCX.Core.Notifier
import AppleMCX.Core.PinnedMemory
import AppleMCX.Core.Publication
import AppleMCX.Core.TeardownOrder
import AppleMCX.Hw.CreateMkey
import AppleMCX.Hw.IfcLaws
import AppleMCX.Hw.MttPages
import AppleMCX.Hw.QpcEncoding
import AppleMCX.Ib.CompletionQueue
import AppleMCX.Ib.Gid
import AppleMCX.Ib.MemoryRegion
import AppleMCX.Ib.MkeyVariant
import AppleMCX.Ib.VerbsLifetime
import AppleMCX.Ib.WorkQueue
import AppleMCX.Interaction.Loop
import AppleMCX.Netif.DmaLifetime
import AppleMCX.Netif.EnableGuard
import AppleMCX.Netif.RxQueue
import AppleMCX.Netif.RxRecycling
import AppleMCX.Netif.TxPoll
import AppleMCX.Netif.TxRing
import AppleMCX.Userclient.BusyCheck
import AppleMCX.Userclient.Completeness
import AppleMCX.Userclient.Isolation
import AppleMCX.Usermode.CqConsumer
import AppleMCX.Usermode.QueuePairState
import AppleMCX.Usermode.SendQueue
import AppleMCX.Usermode.QueueSizes
import AppleMCX.Core.Health
import AppleMCX.Ib.AddressHandle
import AppleMCX.Usermode.SendEncoders
import AppleMCX.Usermode.DeviceList
import AppleMCX.Usermode.EventDelivery
import AppleMCX.Usermode.CompletionEvents
import AppleMCX.Core.BfRegs
import AppleMCX.Core.HcaCaps
import AppleMCX.Usermode.PostedWork
import AppleMCX.Usermode.SendCompletions
import AppleMCX.Usermode.Handshake
import AppleMCX.Core.EventMasks
import AppleMCX.Netif.ObjectOrder
import AppleMCX.Netif.TxFrames
import AppleMCX.Netif.CompletionDrain
