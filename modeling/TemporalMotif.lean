import TemporalMotif.Command
import TemporalMotif.Graph.Basic
import TemporalMotif.Graph.Flow
import TemporalMotif.Graph.Profile
import TemporalMotif.Graph.Sample
import TemporalMotif.Main
import TemporalMotif.Match.Bounds
import TemporalMotif.Match.Domain
import TemporalMotif.Match.Matcher
import TemporalMotif.Match.Occurrence
import TemporalMotif.Match.Order
import TemporalMotif.Match.Positions
import TemporalMotif.Match.Run
import TemporalMotif.Match.Search
import TemporalMotif.Random.XorShift
import TemporalMotif.Text.Blank
import TemporalMotif.Text.Labels
import TemporalMotif.Text.Layout
import TemporalMotif.Text.Numeral
import TemporalMotif.Text.Reader
import TemporalMotif.Text.Writer
import TemporalMotif.Time.Index
import TemporalMotif.Time.MaxSpan
import TemporalMotif.Time.Multiset
import TemporalMotif.Time.Stamp
import TemporalMotif.Time.Window
import TemporalMotif.Proofs.Lookup
import TemporalMotif.Proofs.Construction
import TemporalMotif.Proofs.Representation
import TemporalMotif.Proofs.Pruning
import TemporalMotif.Proofs.Pairs
import TemporalMotif.Proofs.Embedding
import TemporalMotif.Proofs.Dominance
import TemporalMotif.Proofs.Extension
import TemporalMotif.Proofs.Enumeration
import TemporalMotif.Proofs.Correspondence
import TemporalMotif.Proofs.BoundTimes
import TemporalMotif.Proofs.MatchedSets
import TemporalMotif.Proofs.SearchLoop
import TemporalMotif.Proofs.Termination
import TemporalMotif.Proofs.Backtracking
import TemporalMotif.Proofs.SearchState
import TemporalMotif.Proofs.Growth
import TemporalMotif.Proofs.Sampling
import TemporalMotif.Proofs.Matching
import TemporalMotif.Proofs.SplitSearch
import TemporalMotif.Proofs.Reading
import TemporalMotif.Proofs.Restriction
import TemporalMotif.Proofs.Admission
import TemporalMotif.Proofs.Counting
import TemporalMotif.Proofs.Capping
import TemporalMotif.Proofs.Fields
import TemporalMotif.Proofs.LoadFormat
import TemporalMotif.Proofs.Writing
import TemporalMotif.Proofs.PrintedLines
import TemporalMotif.Proofs.RoundTrip
import TemporalMotif.Proofs.Profiles
import TemporalMotif.Proofs.GreedyOrder
import TemporalMotif.Proofs.Windows
