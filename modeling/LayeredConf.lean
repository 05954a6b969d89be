import LayeredConf.Dispatcher
import LayeredConf.Forest.Merging
import LayeredConf.Load.File
import LayeredConf.Load.Log
import LayeredConf.Selection
import LayeredConf.Tree.Json
import LayeredConf.Template.NodeFunctions
import LayeredConf.Proofs.Lookup.Isolation
import LayeredConf.Proofs.Lookup.Stacking
import LayeredConf.Proofs.Load.Expansion
import LayeredConf.Proofs.Tree.Encoding
import LayeredConf.Proofs.Tree.Decoding
import LayeredConf.Proofs.Load.Listings
import LayeredConf.Proofs.Dispatcher.Once
import LayeredConf.Proofs.Switch.Evaluation
import LayeredConf.Proofs.Forest.Merging
import LayeredConf.Proofs.Forest.Moving
import LayeredConf.Proofs.Lookup.Placing
import LayeredConf.Proofs.Lookup.Keyed
import LayeredConf.Proofs.Switch.Groups
import LayeredConf.Proofs.Switch.Payloads
import LayeredConf.Proofs.Load.Failures
import LayeredConf.Proofs.Switch.Entries
import LayeredConf.Proofs.Load.Comments
import LayeredConf.Proofs.Load.Names
import LayeredConf.Proofs.Forest.Filling
import LayeredConf.Proofs.Forest.Sorting
import LayeredConf.Proofs.Tree.Documents
import LayeredConf.Proofs.Template.Acceptance
import LayeredConf.Proofs.Template.Scanning
import LayeredConf.Proofs.Template.ValueLists
import LayeredConf.Proofs.Value.Converting
import LayeredConf.Proofs.Duration.Printed
