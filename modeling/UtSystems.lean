import UtSystems.Threads.Conditions
import UtSystems.Threads.MallocSizes
import UtSystems.Threads.ThreadCreate
import UtSystems.Yashd.CommandPipe
import UtSystems.Userprog.ProcessSlots
import UtSystems.Userprog.ProcessLaunch
import UtSystems.Userprog.ProcessReap
import UtSystems.Userprog.FilesysLock
import UtSystems.Userprog.ExecMemory
import UtSystems.Userprog.LoadedSegments
import UtSystems.Userprog.FailedOpens
import UtSystems.Userprog.ClosedFiles
import UtSystems.Userprog.Executables
import UtSystems.Userprog.CallAssertions
import UtSystems.Userprog.UndisturbedFiles
import UtSystems.Yashd.JobCapacity
import UtSystems.Yashd.CommandWords
import UtSystems.Userprog.CommandNames
import UtSystems.Filesys.RoundTrips
import UtSystems.Devices.Partition
import UtSystems.Libc.HashTable
import UtSystems.Yash.CheckJobs
import UtSystems.Yash.WaitForJob
import UtSystems.Yash.JobSlots
import UtSystems.Yash.CurrentJob
import UtSystems.Yash.ParserMeaning
import UtSystems.Yash.PipelineWiring
import UtSystems.Libc.Arithmetic
import UtSystems.Libc.ListSort
import UtSystems.Libc.ListSequences
import UtSystems.Devices.RealTimeClock
import UtSystems.Libc.Tokeniser
import UtSystems.Libc.BitArrays
import UtSystems.Libc.ArraySearch
import UtSystems.Devices.TextScreen
import UtSystems.Devices.Keyboard
import UtSystems.Libc.Random
import UtSystems.Threads.BootCommands
import UtSystems.Threads.TimeSlices
import UtSystems.Devices.Timer
import UtSystems.Libc.Console
import UtSystems.Userprog.UserConsole
