import Ecdysis.UpgradeOutcome
import Ecdysis.UpgradeLock
import Ecdysis.DescriptorDrift
import Ecdysis.PidFile
import Ecdysis.ZeroDowntime
import Ecdysis.Shutdown
import Ecdysis.SystemdView
import Ecdysis.Custody
import Ecdysis.CloseOnExec
import Ecdysis.DatagramChain
import Ecdysis.SystemdSockets
import Ecdysis.SystemdUpgrade
import Ecdysis.ReadyPipe
import Ecdysis.ExitSignal
import Ecdysis.Stoppable
import Ecdysis.FailedCalls
import Ecdysis.SocketKinds
import Ecdysis.NonBlocking
import Ecdysis.InitChild
import Ecdysis.ListenFdNames
import Ecdysis.UpgradePipes
import Ecdysis.Handshake
import Ecdysis.PidFileWrite
import Ecdysis.Editions
import Ecdysis.Lineage
import Ecdysis.SystemdNotify
import Ecdysis.LineageNames
import Ecdysis.UpgradeTime
import Ecdysis.Contention
