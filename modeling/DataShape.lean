import DataShape.Check.Coerce
import DataShape.Guard
import DataShape.Walk.Script
import DataShape.Yaml.Block
import DataShape.Proofs.Runs
import DataShape.Proofs.Extension
import DataShape.Proofs.Path
import DataShape.Proofs.Schema.Part
import DataShape.Proofs.Schema.Strip
import DataShape.Proofs.Schema.Like
import DataShape.Proofs.Names.Extraction
import DataShape.Proofs.Names.Order
import DataShape.Proofs.Names.Resolution
import DataShape.Proofs.Names.Acceptance
import DataShape.Proofs.Names.Enumeration
import DataShape.Proofs.Names.Unfolding
import DataShape.Proofs.Names.Stripping
import DataShape.Proofs.Names.Chain
import DataShape.Proofs.Names.Endless
import DataShape.Proofs.Names.Rejection
import DataShape.Proofs.Names.Filling
import DataShape.Proofs.Names.Flattening
import DataShape.Proofs.Names.Splicing
import DataShape.Proofs.Walk.Height
import DataShape.Proofs.Walk.Task
import DataShape.Proofs.Walk.Transcript
import DataShape.Proofs.Walk.Totality
import DataShape.Proofs.Walk.Recording
import DataShape.Proofs.Walk.Visits
import DataShape.Proofs.Walk.Correspondence
import DataShape.Proofs.Walk.Unfolding
import DataShape.Proofs.Walk.Stripping
import DataShape.Proofs.Walk.Places
import DataShape.Proofs.Walk.Rearranging
import DataShape.Proofs.Walk.Aligned
import DataShape.Proofs.Check.Conforms
import DataShape.Proofs.Check.Raised
import DataShape.Proofs.Check.Validity
import DataShape.Proofs.Check.Local
import DataShape.Proofs.Check.Conversion
import DataShape.Proofs.Check.Termination
import DataShape.Proofs.Check.Repair
import DataShape.Proofs.Check.Idempotence
import DataShape.Proofs.Check.Prune
import DataShape.Proofs.Check.Unfolding
import DataShape.Proofs.Check.Relaxing
import DataShape.Proofs.Check.Stripping
import DataShape.Proofs.Check.Alternatives
import DataShape.Proofs.Check.Splicing
import DataShape.Proofs.Check.Frame
import DataShape.Proofs.Check.Rearranging
import DataShape.Proofs.Check.Undescribed
import DataShape.Proofs.Check.Located
import DataShape.Proofs.Events
import DataShape.Proofs.Guard
import DataShape.Proofs.Text.Blank
import DataShape.Proofs.Text.Lines
import DataShape.Proofs.Text.Indenting
import DataShape.Proofs.Schema.Token
import DataShape.Proofs.Schema.Modifiers
import DataShape.Proofs.Json.Tree
import DataShape.Proofs.Schema.Grammar
import DataShape.Proofs.Decimal.Finite
import DataShape.Proofs.Decimal.Closest
import DataShape.Proofs.Decimal.Integer
import DataShape.Proofs.Json.Text
import DataShape.Proofs.Check.Integers
import DataShape.Proofs.Value.Tree
import DataShape.Proofs.Value.Equality
import DataShape.Proofs.Value.Places
import DataShape.Proofs.Value.Rearranged
import DataShape.Proofs.Value.Json
import DataShape.Proofs.Value.Exchange
import DataShape.Proofs.Docs
import DataShape.Proofs.Schema.Printing
import DataShape.Proofs.Schema.RoundTrip
