import SesLabs.Bytes
import SesLabs.EventRun
import SesLabs.MarkSet
import SesLabs.BitmapProgram
import SesLabs.BitmapEncrypt
import SesLabs.BitmapDecrypt
import SesLabs.BitmapPicture
import SesLabs.BitmapOutputs
import SesLabs.BitmapRecovery
import SesLabs.BitmapFrame
import SesLabs.BitmapTrace
import SesLabs.BitmapBounds
import SesLabs.BitmapTruncated
import SesLabs.BitmapLeak
import SesLabs.ByteReplace
import SesLabs.VersionScripts
import SesLabs.RunMonitor
import SesLabs.BitmapSteps
import SesLabs.BitmapResources
import SesLabs.BitmapChain
import SesLabs.ReplaceRuns
import SesLabs.VersionRuns
import SesLabs.Glob
import SesLabs.Fields
import SesLabs.SshMatch
import SesLabs.SshNames
import SesLabs.Machine
import SesLabs.SshBuf
import SesLabs.SshKexinit
import SesLabs.Fallible
import SesLabs.SshNegotiation
import SesLabs.Duplex
import SesLabs.SshKexRun
import SesLabs.SshBanner
import SesLabs.SshBannerRun
import SesLabs.SshUserauth
