import BoundedBuffer.BoundedList
import BoundedBuffer.Cells.Basic
import BoundedBuffer.Cells.Bytes
import BoundedBuffer.Cells.Options
import BoundedBuffer.Cells.Request
import BoundedBuffer.Proofs.Cells.Held
import BoundedBuffer.Proofs.Cells.Lawful
import BoundedBuffer.Proofs.Cells.Recall
import BoundedBuffer.Proofs.Queue.Bodies
import BoundedBuffer.Proofs.Queue.Capacity
import BoundedBuffer.Proofs.Queue.Cascades
import BoundedBuffer.Proofs.Queue.Effects
import BoundedBuffer.Proofs.Queue.Forms
import BoundedBuffer.Proofs.Queue.Fronts
import BoundedBuffer.Proofs.Queue.Glimpses
import BoundedBuffer.Proofs.Queue.Linearizability
import BoundedBuffer.Proofs.Queue.Parcels
import BoundedBuffer.Proofs.Queue.Refusals
import BoundedBuffer.Proofs.Queue.Reports
import BoundedBuffer.Proofs.Queue.Settling
import BoundedBuffer.Proofs.Queue.Steps
import BoundedBuffer.Proofs.Queue.Termination
import BoundedBuffer.Proofs.Queue.Threads
import BoundedBuffer.Proofs.Queue.Turns
import BoundedBuffer.Proofs.Queue.Wakeups
import BoundedBuffer.Proofs.Queue.Workload.Agenda
import BoundedBuffer.Proofs.Queue.Workload.Delivery
import BoundedBuffer.Proofs.Queue.Workload.Progress
import BoundedBuffer.Proofs.Ring.Alike
import BoundedBuffer.Proofs.Ring.Clearance
import BoundedBuffer.Proofs.Ring.Custody
import BoundedBuffer.Proofs.Ring.Holding
import BoundedBuffer.Proofs.Ring.Imprint
import BoundedBuffer.Proofs.Ring.Intake
import BoundedBuffer.Proofs.Ring.Ledger
import BoundedBuffer.Proofs.Ring.Occupancy
import BoundedBuffer.Proofs.Ring.Racks
import BoundedBuffer.Proofs.Ring.Refinement
import BoundedBuffer.Proofs.Ring.Trails
import BoundedBuffer.Proofs.Ring.Transfers
import BoundedBuffer.Proofs.Ring.Windows
import BoundedBuffer.Proofs.Ring.Words
import BoundedBuffer.Queue.Body
import BoundedBuffer.Queue.Call
import BoundedBuffer.Queue.Log
import BoundedBuffer.Queue.Monitor
import BoundedBuffer.Queue.Schedule
import BoundedBuffer.Queue.Sequential
import BoundedBuffer.Queue.Session
import BoundedBuffer.Queue.Settings
import BoundedBuffer.Queue.Turn
import BoundedBuffer.Queue.Workload
import BoundedBuffer.Ring.Basic
import BoundedBuffer.Ring.Rack
import BoundedBuffer.Ring.Request
import BoundedBuffer.Ring.Walk
import BoundedBuffer.Ring.WordRing
import BoundedBuffer.Text.Record
import BoundedBuffer.Time
import BoundedBuffer.Proofs.Queue.Schedules
