import DhcpdPools.Alarm
import DhcpdPools.Capacity
import DhcpdPools.LeaseBlocks
import DhcpdPools.LeaseKeywords
import DhcpdPools.LeasePieces
import DhcpdPools.Occupancy
import DhcpdPools.Perfdata
import DhcpdPools.Sort
import DhcpdPools.ConfigComments
import DhcpdPools.ConfigShared
import DhcpdPools.ConfigLibrary
import DhcpdPools.ConfigNames
import DhcpdPools.ConfigNetmask
import DhcpdPools.OutputNames
import DhcpdPools.OutputNumbers
import DhcpdPools.OutputCsv
import DhcpdPools.OutputTables
import DhcpdPools.CommandLine
import DhcpdPools.AlarmStatus
import DhcpdPools.Coverage
import DhcpdPools.Documents
import DhcpdPools.Memory
