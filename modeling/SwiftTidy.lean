import SwiftTidy.Config.Active
import SwiftTidy.Config.Loader
import SwiftTidy.Config.Schema
import SwiftTidy.Proofs.Activation
import SwiftTidy.Proofs.Assertions
import SwiftTidy.Proofs.Bands
import SwiftTidy.Proofs.Cleanness
import SwiftTidy.Proofs.Commutation
import SwiftTidy.Proofs.Comparisons
import SwiftTidy.Proofs.Discovery
import SwiftTidy.Proofs.EmptyNodes
import SwiftTidy.Proofs.ErrorSpans
import SwiftTidy.Proofs.LineTable
import SwiftTidy.Proofs.Locality
import SwiftTidy.Proofs.Lossless
import SwiftTidy.Proofs.Merging
import SwiftTidy.Proofs.Notes
import SwiftTidy.Proofs.RegionOrder
import SwiftTidy.Proofs.Registration
import SwiftTidy.Proofs.RemovalOrder
import SwiftTidy.Proofs.Restraint
import SwiftTidy.Proofs.Rounds
import SwiftTidy.Proofs.Seams
import SwiftTidy.Proofs.Shortening
import SwiftTidy.Proofs.Skeleton
import SwiftTidy.Proofs.Surroundings
import SwiftTidy.Proofs.Turns
import SwiftTidy.Proofs.TypedForms
import SwiftTidy.Proofs.Unbounded
import SwiftTidy.Proofs.VoidClauses
import SwiftTidy.Proofs.Wording
import SwiftTidy.Rule.Example
import SwiftTidy.Rules.Builtin
