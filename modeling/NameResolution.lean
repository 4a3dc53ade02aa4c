import NameResolution.Diagnostic.Check
import NameResolution.Diagnostic.Report
import NameResolution.Name.Order
import NameResolution.Name.Parse
import NameResolution.OrderedMap.Lemmas
import NameResolution.Workspace
import NameResolution.Proofs.Ancestry.Reach
import NameResolution.Proofs.Diagnostic.Ties
import NameResolution.Proofs.Lookup.Freshness
import NameResolution.Proofs.Lookup.Members
import NameResolution.Proofs.Lookup.Toplevel
import NameResolution.Proofs.Environment.Agreement
import NameResolution.Proofs.Lookup.Mirror
import NameResolution.Proofs.Lookup.Rearrangement
import NameResolution.Proofs.Lookup.Alias
import NameResolution.Proofs.Environment.Index
import NameResolution.Proofs.Environment.Declared
import NameResolution.Proofs.Lookup.TypePath
import NameResolution.Proofs.Lookup.Dereference
import NameResolution.Proofs.Lookup.ClassNames
import NameResolution.Proofs.Lookup.Fresh
import NameResolution.Proofs.Lookup.Isolation
import NameResolution.Proofs.Lookup.Tables
import NameResolution.Proofs.Diagnostic.Clash
import NameResolution.Proofs.Ancestry.Inclusion
import NameResolution.Proofs.Lookup.Repetition
import NameResolution.Proofs.Environment.Merged
import NameResolution.Proofs.Diagnostic.References
import NameResolution.Proofs.Environment.Atomic
import NameResolution.Proofs.Environment.AliasChain
import NameResolution.Proofs.Ancestry.Nesting
import NameResolution.Proofs.Name.Parse
import NameResolution.Proofs.Name.Paths
import NameResolution.Proofs.Constant.Insertion
import NameResolution.Proofs.Lookup.Bounds
import NameResolution.Proofs.NamePool.Shelf
