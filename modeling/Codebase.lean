import Codebase.Main
import Codebase.Host.Memory
import Codebase.Proofs.Workspace.Fresh
import Codebase.Proofs.Workspace.Holder
import Codebase.Proofs.Path
import Codebase.Proofs.Workspace.Charter
import Codebase.Proofs.Manifest
import Codebase.Proofs.Workspace.Transaction
import Codebase.Proofs.Workspace.Lifecycle
import Codebase.Proofs.Workspace.Release
import Codebase.Proofs.Workspace.Deletion
import Codebase.Proofs.Workspace.Rebuild
import Codebase.Proofs.Workspace.Serving
import Codebase.Proofs.Workspace.Provision
import Codebase.Proofs.Workspace.Isolation
import Codebase.Proofs.Workspace.Gating
import Codebase.Proofs.Build.Closure
import Codebase.Proofs.Host.Report
import Codebase.Proofs.Workspace.Spare
import Codebase.Proofs.Workspace.Arrival
import Codebase.Proofs.Workspace.Mirror
import Codebase.Proofs.Workspace.Adherence
import Codebase.Proofs.Workspace.Deferral
import Codebase.Proofs.Workspace.Order
import Codebase.Proofs.Workspace.Encroachment
import Codebase.Proofs.Worker
import Codebase.Proofs.Workspace.Failure
import Codebase.Proofs.Workspace.Capability
import Codebase.Proofs.Host.Listing
import Codebase.Proofs.Workspace.Absence
import Codebase.Proofs.Build.Depth
import Codebase.Proofs.Workspace.Reload
import Codebase.Proofs.Documents.Lifetime
import Codebase.Proofs.Manifest.Enumeration
import Codebase.Proofs.Workspace.Coverage
import Codebase.Proofs.Workspace.Creation
import Codebase.Proofs.Workspace.Cleaning
import Codebase.Proofs.Declaration
import Codebase.Proofs.Reference
import Codebase.Proofs.Document
import Codebase.Proofs.Path.Spelling
import Codebase.Proofs.Host.Directory
import Codebase.Proofs.Workspace.Handle
import Codebase.Proofs.Ownership.History
import Codebase.Proofs.Declaration.Name
import Codebase.Proofs.Path.Containment
import Codebase.Proofs.Manifest.Order
