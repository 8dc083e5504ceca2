import ControlGroups.Proofs.Attribute.MemoryLimit
import ControlGroups.Proofs.Binary64.Division
import ControlGroups.Proofs.Container.Markers
import ControlGroups.Proofs.Container.Spelling
import ControlGroups.Proofs.Controllers.FirstFailure
import ControlGroups.Proofs.Controllers.Translation
import ControlGroups.Proofs.Controllers.Truncation
import ControlGroups.Proofs.Inspector.CpuReaders
import ControlGroups.Proofs.Inspector.Gating
import ControlGroups.Proofs.Inspector.MemoryQuota
import ControlGroups.Proofs.Inspector.Spelling
import ControlGroups.Proofs.Machine.MemoryOrder
import ControlGroups.Proofs.Machine.OnlineCpus
import ControlGroups.Proofs.Mount.Hierarchy
import ControlGroups.Proofs.Path.Reading
import ControlGroups.Proofs.Scan.Accepted
import ControlGroups.Proofs.Scan.Delivery
import ControlGroups.Proofs.Scan.Written
import ControlGroups.Proofs.Section.Shares
import ControlGroups.Proofs.Session.Latch
