import MeteredScript.Main
import MeteredScript.Proofs.Congruence
import MeteredScript.Proofs.Termination
import MeteredScript.Proofs.Crashes
import MeteredScript.Proofs.Limits
import MeteredScript.Proofs.Kinds
import MeteredScript.Proofs.Numbering
import MeteredScript.Proofs.Safety
import MeteredScript.Proofs.Printer
import MeteredScript.Proofs.Reading
import MeteredScript.Proofs.ReadExpressions
import MeteredScript.Proofs.ReadPrograms
import MeteredScript.Proofs.Flattening
import MeteredScript.Proofs.Accounting
import MeteredScript.Proofs.Isolation
import MeteredScript.Proofs.Dependencies
import MeteredScript.Proofs.Bindings
import MeteredScript.Proofs.Propagation
import MeteredScript.Proofs.TokenEnds
import MeteredScript.Proofs.Layout
import MeteredScript.Proofs.Spelling
import MeteredScript.Proofs.Partition
import MeteredScript.Proofs.ParseSpans
import MeteredScript.Proofs.RunSpans
import MeteredScript.Proofs.Regime
import MeteredScript.Proofs.Effects
import MeteredScript.Proofs.Handles
import MeteredScript.Proofs.HeapAccess
import MeteredScript.Proofs.Spending
import MeteredScript.Proofs.NumberGrowth
import MeteredScript.Proofs.HeapGrowth
import MeteredScript.Proofs.Sharing
import MeteredScript.Proofs.TextLengths
import MeteredScript.Proofs.Unfolding
import MeteredScript.Proofs.Joining
import MeteredScript.Proofs.Copying
import MeteredScript.Proofs.Covering
import MeteredScript.Proofs.NodeRanges
import MeteredScript.Proofs.ErrorRanges
import MeteredScript.Proofs.Cuts
import MeteredScript.Proofs.Numerals
import MeteredScript.Proofs.Literals
import MeteredScript.Proofs.Coercion
import MeteredScript.Proofs.CanonicalText
import MeteredScript.Proofs.DataText
import MeteredScript.Proofs.NumberWords
import MeteredScript.Proofs.Powers
import MeteredScript.Proofs.Bitwise
import MeteredScript.Proofs.Equality
import MeteredScript.Proofs.Members
import MeteredScript.Proofs.PrefixUpdates
import MeteredScript.Proofs.SourceOrder
import MeteredScript.Proofs.DependencyOrder
import MeteredScript.Proofs.Advancing
import MeteredScript.Proofs.Progress
import MeteredScript.Proofs.Objects
