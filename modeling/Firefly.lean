import Firefly.Storage.Layout
import Firefly.Storage.PowerLoss
import Firefly.Storage.Collection
import Firefly.Storage.Newest
import Firefly.Rpc.Connection
import Firefly.Rpc.Session
import Firefly.Rpc.FrameBuffer
import Firefly.Rpc.Close
import Firefly.Rpc.Transport
import Firefly.Rpc.Handshake
import Firefly.Rpc.Bursts
import Firefly.Base.Crc32
import Firefly.Boot.SelfHeal
import Firefly.Boot.Contexts
import Firefly.Boot.Documented
import Firefly.Boot.Rollback
import Firefly.Boot.SplitAgreement
import Firefly.Boot.UpdateRead
import Firefly.Boot.Blanking
import Firefly.Boot.Completion
import Firefly.Ux.Debounce
import Firefly.Ux.Wake
import Firefly.Base.Gateway
import Firefly.Base.Refusal
import Firefly.Base.Bit
import Firefly.Base.Event
import Firefly.Swd.Direction
import Firefly.Swd.Data
import Firefly.Base.EvalParse
import Firefly.Base.Overlap
import Firefly.Storage.Exhaustion
import Firefly.Rpc.Bounds
import Firefly.Base.Echo
import Firefly.Base.Decoding
import Firefly.Rpc.Verdict
import Firefly.Boot.Overlong
import Firefly.Rpc.Unary
import Firefly.Rpc.Streaming
import Firefly.Rpc.Sequence
import Firefly.Base.Varint
import Firefly.Base.Shifts
import Firefly.Base.ObjectFifo
import Firefly.Base.Slices
import Firefly.Base.Remove
import Firefly.Base.Calendar
import Firefly.Base.TransferDispatch
import Firefly.Base.GpioDispatch
import Firefly.Base.Work
import Firefly.Base.DeltaPython
import Firefly.Base.EvalArithmetic
import Firefly.Graphics.Area
import Firefly.Graphics.Backend
import Firefly.Graphics.Backends
import Firefly.Graphics.Background
import Firefly.Graphics.Strings
import Firefly.Graphics.Drawings
import Firefly.Crypto.Sha1
import Firefly.Crypto.AesCbc
import Firefly.Boot.Crypto
import Firefly.Base.Ieee754
import Firefly.Base.UartProgress
import Firefly.Base.I2cmBitbang
import Firefly.Rpc.ChannelUsb
import Firefly.Rtos.Runs
import Firefly.Base.AnimationCalls
import Firefly.Base.AnimationTimer
