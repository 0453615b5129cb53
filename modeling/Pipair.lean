import Pipair.CallGraphText
import Pipair.Counting
import Pipair.CountingReport
import Pipair.CountingRounded
import Pipair.CountingStores
import Pipair.Doubles
import Pipair.Java
import Pipair.Library.HashMap
import Pipair.Library.Index
import Pipair.Library.Iteration
import Pipair.Library.Loop
import Pipair.Library.Mining
import Pipair.Library.Once
import Pipair.Library.Pattern
import Pipair.Library.Rounding
import Pipair.Library.Tally
import Pipair.Library.Unfolding
import Pipair.Library.Walk
import Pipair.Library.Words
import Pipair.LineBlocks
import Pipair.Lines
import Pipair.Nodes
import Pipair.PartA
import Pipair.PartC.Bounded
import Pipair.PartC.Depth
import Pipair.PartC.Exhaustive
import Pipair.PartC.Expand
import Pipair.PartC.ExpandAgainstA
import Pipair.PartC.Expanded
import Pipair.PartC.ExpansionSize
import Pipair.PartC.Graded
import Pipair.PartC.Inlining
import Pipair.PartC.Leaves
import Pipair.PartC.LevelOne
import Pipair.PartC.ListExpand
import Pipair.PartC.Missed
import Pipair.PartC.Orders
import Pipair.PartC.Routes
import Pipair.PartC.Run
import Pipair.PartC.Search
import Pipair.PartC.SetExpand
import Pipair.PartC.Stores
import Pipair.PartC.Traversal
import Pipair.PartD.AgainstA
import Pipair.PartD.AnyNames
import Pipair.PartD.Earlier
import Pipair.PartD.Printed
import Pipair.PartD.ReportText
import Pipair.PartD.Rounded
import Pipair.PartD.Run
import Pipair.Report
import Pipair.ReportText
import Pipair.RoundTrip
import Pipair.Scan
import Pipair.Sites
import Pipair.Thresholds
