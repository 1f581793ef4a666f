import PageBuilder.Service.Routes
import PageBuilder.Proofs.Action.Failed
import PageBuilder.Proofs.Document.Import
import PageBuilder.Proofs.Json.CanonicalForm
import PageBuilder.Proofs.Store.Operations
import PageBuilder.Proofs.Service.Reload
import PageBuilder.Proofs.Action.Frame
import PageBuilder.Proofs.Action.Planned
import PageBuilder.Proofs.Action.Closed
import PageBuilder.Proofs.Action.Body
import PageBuilder.Proofs.Action.Requests
import PageBuilder.Proofs.Store.Workable
import PageBuilder.Proofs.Action.Told
import PageBuilder.Proofs.Service.Context
import PageBuilder.Proofs.Service.Tree
import PageBuilder.Proofs.Service.Refused
import PageBuilder.Proofs.Service.Malformed
import PageBuilder.Proofs.Service.Loaded
import PageBuilder.Proofs.Template.References
import PageBuilder.Proofs.Path.Address
import PageBuilder.Proofs.Store.Commute
import PageBuilder.Proofs.Store.Move
import PageBuilder.Proofs.Document.Loadable
import PageBuilder.Proofs.Store.Selection
import PageBuilder.Proofs.Template.Meaning
import PageBuilder.Proofs.Template.Stalled
import PageBuilder.Proofs.Template.Readable
import PageBuilder.Proofs.Action.Written
import PageBuilder.Proofs.Store.Reorder
import PageBuilder.Proofs.Store.Remove
import PageBuilder.Proofs.Store.Update
import PageBuilder.Proofs.Action.Response
import PageBuilder.Proofs.Action.WholeBody
import PageBuilder.Proofs.Template.Mirror
import PageBuilder.Proofs.Service.ActionRemoval
import PageBuilder.Proofs.Service.ActionEdits
import PageBuilder.Proofs.Service.ActionNames
import PageBuilder.Proofs.Action.Partition
import PageBuilder.Proofs.Service.Grants
import PageBuilder.Proofs.Settings.Environment
import PageBuilder.Proofs.Store.Finding
import PageBuilder.Proofs.Json.Within
import PageBuilder.Proofs.Document.Within
import PageBuilder.Proofs.Store.Guest
