import ScEthernet.Lib.Runs
import ScEthernet.Lib.UnrolledRing
import ScEthernet.Lib.WordMemory
import ScEthernet.Lib.WordArith
import ScEthernet.Lib.BitOrder
import ScEthernet.Lib.ShiftCrc
import ScEthernet.Lib.ChannelTokens
import ScEthernet.Lib.CircularFifo
import ScEthernet.Wire
import ScEthernet.Full.Malloc
import ScEthernet.Full.PoolQueue
import ScEthernet.Full.FreeOrder
import ScEthernet.Full.FreeStores
import ScEthernet.Full.TxPool
import ScEthernet.Lite.OutPacket
import ScEthernet.Lite.Buffer
import ScEthernet.Lite.BankChain
import ScEthernet.Lite.StoreInv
import ScEthernet.Lite.StoreSafety
import ScEthernet.Lite.ReadSide
import ScEthernet.Lite.ArrivalOrder
import ScEthernet.Lite.Refill
import ScEthernet.Lite.Footprint
import ScEthernet.Lite.Stock
import ScEthernet.Lite.Delivery
import ScEthernet.Lite.SafeRx
import ScEthernet.Lite.OutLoop
import ScEthernet.Full.Transmit
import ScEthernet.Full.RxLink
import ScEthernet.Full.RxNotify
import ScEthernet.Full.RxServer
import ScEthernet.Full.RxPins
import ScEthernet.Full.RxCounts
import ScEthernet.Full.RxComplete
import ScEthernet.Full.RxTransfer
import ScEthernet.Full.RxRequests
import ScEthernet.Full.RxForward
import ScEthernet.Full.TxShaper
import ScEthernet.Full.ShaperWords
import ScEthernet.Full.TxTransfer
import ScEthernet.Full.RxReadPointer
import ScEthernet.Transmitters
import ScEthernet.Receivers
import ScEthernet.Full.FilterPass
import ScEthernet.Full.FilterView
import ScEthernet.ErrorDetection
import ScEthernet.Full.DataWalks
import ScEthernet.Full.TimedTransmission
import ScEthernet.Smi.PhyModes
import ScEthernet.Full.TxOrder
import ScEthernet.Full.RxDelivery
import ScEthernet.Full.WiredSystem
import ScEthernet.Full.WiredDelivery
