import OctetDB.Catalog.Ahead
import OctetDB.Catalog.Durable
import OctetDB.Catalog.Isolation
import OctetDB.Keyed.Coordinator
import OctetDB.Keyed.Damage
import OctetDB.Keyed.Enlarge
import OctetDB.Keyed.SnapshotCrash
import OctetDB.Accounts.Serial
import OctetDB.Accounts.Faults
import OctetDB.Accounts.Crash
import OctetDB.Accounts.Balance
import OctetDB.Accounts.Confirm
import OctetDB.Accounts.Atomic
import OctetDB.Accounts.Versions
import OctetDB.Research.Baseline
import OctetDB.Research.SegmentCrash
import OctetDB.Scheduled.Cancel
import OctetDB.Research.Shutdown
import OctetDB.Trust.Admission
import OctetDB.Trust.Completion
import OctetDB.M5.Cache
