import ThreadedServer.Transition
import ThreadedServer.Worker
import ThreadedServer.WorkerLife
import ThreadedServer.Semaphore
import ThreadedServer.Dispatcher
import ThreadedServer.Permits
import ThreadedServer.Dispatch
import ThreadedServer.OnlineVad
import ThreadedServer.Hangover
import ThreadedServer.DelayLine
import ThreadedServer.Delivery
import ThreadedServer.RingBuffer
import ThreadedServer.OnlineCmn
import ThreadedServer.FileMode
import ThreadedServer.OnlineDecoder
import ThreadedServer.Ancestry
import ThreadedServer.Traceback
import ThreadedServer.OutputWords
import ThreadedServer.Exchange
import ThreadedServer.Requests
import ThreadedServer.Outputs
import ThreadedServer.Wakeups
import ThreadedServer.PermitCount
import ThreadedServer.LdaInput
import ThreadedServer.RollingMean
import ThreadedServer.Framing
import ThreadedServer.Listeners
import ThreadedServer.AudioTransfer
import ThreadedServer.WorkSession
import ThreadedServer.ClientSession
import ThreadedServer.ServerProcess
import ThreadedServer.DecodeLoop
import ThreadedServer.PacketStream
import ThreadedServer.EnergyVad
import ThreadedServer.Config
import ThreadedServer.SemaphoreWaiters
import ThreadedServer.BatchNormalisation
import ThreadedServer.FeatureBatches
import ThreadedServer.ClientOutput
import ThreadedServer.WorkerEnd
import ThreadedServer.DecodeWorkerLife
import ThreadedServer.ImmortalToken
import ThreadedServer.Descriptors
import ThreadedServer.LdaTransform
import ThreadedServer.InvertedVariance
import ThreadedServer.PhoneSplit
import ThreadedServer.EndOfUtterance
import ThreadedServer.PoolShutdown
import ThreadedServer.PoolTasks
import ThreadedServer.PoolTermination
import ThreadedServer.BeamControl
import ThreadedServer.LatticeCosts
import ThreadedServer.FeInput
import ThreadedServer.FeatureChain
import ThreadedServer.FileSession
import ThreadedServer.ResultText
import ThreadedServer.SpeechDetection
import ThreadedServer.Rescaling
import ThreadedServer.PaSource
