import Nds3.Lib.Lts
import Nds3.StateMachine.Exclusion
import Nds3.StateMachine.Observers
import Nds3.StateMachine.Deinitialize
import Nds3.StateMachine.Resolution
import Nds3.StateMachine.Trace
import Nds3.StateMachine.WriteState
import Nds3.StateMachine.Driver
import Nds3.StateMachine.Progress
import Nds3.StateMachine.Acquisition
import Nds3.Tree.GlobalState
import Nds3.Tree.ExternalNames
import Nds3.Tree.Failure
import Nds3.Tree.CanChange
import Nds3.Tree.RoundTrip
import Nds3.Tree.StateNames
import Nds3.Tree.FullNames
import Nds3.Registry.Replication
import Nds3.Registry.Decimation
import Nds3.Registry.DecimationZero
import Nds3.Registry.FanOut
import Nds3.Registry.Disconnect
import Nds3.Registry.SetValue
import Nds3.Registry.Types
import Nds3.Device.Lifecycle
import Nds3.Device.Folders
import Nds3.Device.Locking
import Nds3.Device.Shutdown
import Nds3.Tree.Snapshots
import Nds3.Tree.Devices
import Nds3.Registry.Access
import Nds3.Device.Modules
import Nds3.Logging.Levels
import Nds3.Logging.Lifetimes
import Nds3.Ini.Padding
import Nds3.Ini.Comments
import Nds3.Ini.Search
import Nds3.Registry.Variables
import Nds3.Registry.Order
import Nds3.Registry.Linear
import Nds3.Registry.Delivery
