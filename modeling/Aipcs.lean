import Aipcs.Portable.Stream
import Aipcs.Relational.Factory
import Aipcs.Records.Compilation
import Aipcs.Coordinator.Agreement
import Aipcs.Store.AtMostOnce
import Aipcs.Registry.Answers
import Aipcs.Lifecycle.Evidence
import Aipcs.Lifecycle.Decisive
import Aipcs.Lifecycle.CatalogInspection
import Aipcs.Lifecycle.Rounds
import Aipcs.Data.Runs
import Aipcs.Data.Recall
import Aipcs.Data.Reads
import Aipcs.Data.Assignments
import Aipcs.Data.Admission
import Aipcs.Data.Reparenting
import Aipcs.Data.Maintenance
import Aipcs.Data.Traversal
import Aipcs.Data.Signals
import Aipcs.Data.BranchOrder
import Aipcs.Data.Cursors
import Aipcs.Data.Observation
import Aipcs.Transfer.Publication
import Aipcs.Data.Pages
import Aipcs.Transfer.Manifests
