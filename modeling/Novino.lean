import Novino.Theorems.Dist
import Novino.Theorems.Input
import Novino.Theorems.Space
import Novino.Theorems.Transfers
import Novino.Theorems.Descriptors
import Novino.Theorems.Transparency
import Novino.Theorems.Frames
import Novino.Theorems.Mutexes
import Novino.Theorems.Signals
import Novino.Theorems.Children
import Novino.Theorems.Regions
import Novino.Theorems.Pipes
import Novino.Theorems.Malloc
import Novino.Theorems.Partitions
import Novino.Theorems.Timers
import Novino.Theorems.Fairness
import Novino.Theorems.Reassembly
import Novino.Theorems.Msi
import Novino.Theorems.Notices
import Novino.Theorems.Events
import Novino.Theorems.Commands
import Novino.Theorems.Shell
import Novino.Theorems.Prompt
import Novino.Theorems.Saving
import Novino.Theorems.Scans
import Novino.Theorems.Decoding
import Novino.Theorems.Discs
import Novino.Theorems.Archive
import Novino.Theorems.Naming
import Novino.Theorems.Cwd
import Novino.Theorems.Trim
import Novino.Theorems.Completion
import Novino.Theorems.Calendar
