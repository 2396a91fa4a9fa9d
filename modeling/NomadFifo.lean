import NomadFifo.Records
import NomadFifo.PathPacking
import NomadFifo.Collaborator
import NomadFifo.Processors
import NomadFifo.Manager
import NomadFifo.Posting
import NomadFifo.Scheduler
import NomadFifo.Steps
import NomadFifo.Lifecycle
import NomadFifo.LargeValues
import NomadFifo.Ownership
import NomadFifo.RequestLife
import NomadFifo.Batch
import NomadFifo.DroppedRequests
import NomadFifo.UpdateList
import NomadFifo.Keccak
import NomadFifo.Service
import NomadFifo.NodeAccess
import NomadFifo.Upsert
