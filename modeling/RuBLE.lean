import RuBLE.Utils.EnsureRuby
import RuBLE.Utils.RubyCallbackTraits
import RuBLE.Management.QueuePermits
import RuBLE.Management.QueueShutdown
import RuBLE.Management.QueueFailure
import RuBLE.Management.QueueGrowth
import RuBLE.Management.QueueRunning
import RuBLE.Management.QueueStartup
import RuBLE.Management.QueueReadiness
import RuBLE.Management.QueuePolling
import RuBLE.Bindings.Routing
import RuBLE.Bindings.Lifetimes
import RuBLE.Bindings.Lookups
import RuBLE.Bindings.Shutdown
import RuBLE.Concerns.CharacteristicValueTracker
import RuBLE.Utils.GarbageCollection
import RuBLE.Containers.ByteArray
import RuBLE.Build.CMakeFile
import RuBLE.Build.CMakeQuoting
import RuBLE.Build.CMakeResult
import RuBLE.Utils.Hexadecimal
import RuBLE.Concerns.Notifications
import RuBLE.Management.QueueExit
import RuBLE.Management.Instances
import RuBLE.Bindings.Callbacks
import RuBLE.Concerns.Isolation
import RuBLE.Build.Extconf
import RuBLE.Build.GithubRepo
import RuBLE.Tasks.Pager
