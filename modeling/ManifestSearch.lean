import ManifestSearch.Diagnostic
import ManifestSearch.Fixture
import ManifestSearch.Main
import ManifestSearch.Proofs.Path.Segments
import ManifestSearch.Proofs.Path.Parts
import ManifestSearch.Proofs.Tree.Places
import ManifestSearch.Proofs.Tree.Resolution
import ManifestSearch.Proofs.Tree.Below
import ManifestSearch.Proofs.Walk.Leaves
import ManifestSearch.Proofs.Walk.Run
import ManifestSearch.Proofs.Glob.Matching
import ManifestSearch.Proofs.Glob.PlainStart
import ManifestSearch.Proofs.Walk.Site
import ManifestSearch.Proofs.Pattern.WholeWalk
import ManifestSearch.Proofs.Walk.Depth
import ManifestSearch.Proofs.Strategy.Discovery
import ManifestSearch.Proofs.Strategy.Synthesis
import ManifestSearch.Proofs.Walk.Respelling
import ManifestSearch.Proofs.Strategy.Standing
import ManifestSearch.Proofs.Walk.Outcome
import ManifestSearch.Proofs.Strategy.Declaration
import ManifestSearch.Proofs.Chain.Order
import ManifestSearch.Proofs.Chain.Outcomes
import ManifestSearch.Proofs.Tree.Entries
import ManifestSearch.Proofs.Tree.Making
import ManifestSearch.Proofs.Chain.Effects
import ManifestSearch.Proofs.Pattern.LinkedStart
import ManifestSearch.Proofs.Tree.Settling
import ManifestSearch.Proofs.CommandLine.BaseSettings
import ManifestSearch.Proofs.Path.Canonical
import ManifestSearch.Proofs.Path.Above
import ManifestSearch.Proofs.Tree.Unlinked
import ManifestSearch.Proofs.Pattern.Rooted
import ManifestSearch.Proofs.Glob.Grafting
import ManifestSearch.Proofs.Pattern.Climbing
import ManifestSearch.Proofs.Chain.Splitting
import ManifestSearch.Proofs.Strategy.Union
import ManifestSearch.Proofs.Tree.Writing
import ManifestSearch.Proofs.Walk.Regrown
import ManifestSearch.Proofs.Strategy.Drawn
import ManifestSearch.Proofs.Chain.Repetition
import ManifestSearch.Proofs.CommandLine.Settings
import ManifestSearch.Proofs.CommandLine.Restriction
import ManifestSearch.Proofs.Manifest.Reading
import ManifestSearch.Proofs.Tree.Linkless
import ManifestSearch.Proofs.Chain.Succession
import ManifestSearch.Proofs.Path.Shown
import ManifestSearch.Proofs.Walk.Reached
import ManifestSearch.Proofs.Glob.SegmentTokens
import ManifestSearch.Proofs.Glob.SegmentWise
import ManifestSearch.Proofs.Pattern.SegmentWise
import ManifestSearch.Proofs.Strategy.ByPattern
import ManifestSearch.Proofs.TempFolder.Staying
import ManifestSearch.Proofs.Path.Joining
import ManifestSearch.Proofs.Path.Containment
import ManifestSearch.Proofs.Path.Decomposition
import ManifestSearch.Proofs.TempFolder.Freshness
import ManifestSearch.Proofs.Properties.Runs
import ManifestSearch.Proofs.Properties.Declaring
import ManifestSearch.Proofs.TempFolder.Naming
import ManifestSearch.Proofs.CommandLine.Output
import ManifestSearch.Proofs.Tree.Vacancy
import ManifestSearch.Proofs.TempFolder.Lifetime
import ManifestSearch.Proofs.Fixture.Requests
import ManifestSearch.Proofs.Fixture.Walking
