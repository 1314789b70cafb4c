import CArchitecture.Library.OrdMap
import CArchitecture.Library.Loop
import CArchitecture.Library.FirstSeen
import CArchitecture.Library.Csr
import CArchitecture.Library.Text
import CArchitecture.Hypergraph
import CArchitecture.Library.CString
import CArchitecture.CreateHypergraph
import CArchitecture.HgrText
import CArchitecture.SubGraph
import CArchitecture.Bisection
import CArchitecture.LeafNumbers
import CArchitecture.Mygraph
import CArchitecture.Library.Coarsening
import CArchitecture.MergeParts
import CArchitecture.Coarsen
import CArchitecture.HeapSort
import CArchitecture.HillClimbing
import CArchitecture.Partition
import CArchitecture.Library.LinkedQueue
import CArchitecture.MgrJob
import CArchitecture.FindSymbol
import CArchitecture.GrowHalf
import CArchitecture.WritePartition
import CArchitecture.DoHmetis
import CArchitecture.DfsFolder
import CArchitecture.SourceText
import CArchitecture.ReadCpp
import CArchitecture.ReadH
import CArchitecture.Readers
import CArchitecture.Parsing
import CArchitecture.ReadingOrder
import CArchitecture.PartSymmetry
import CArchitecture.MovedNodes
import CArchitecture.MethodBodies
import CArchitecture.PrintedSource
import CArchitecture.PrintedHeader
import CArchitecture.DeclaredTypes
import CArchitecture.GlobalText
import CArchitecture.IncludeSearch
import CArchitecture.TypeDefs
import CArchitecture.ConfigLine
import CArchitecture.VerticeText
import CArchitecture.Queues
import CArchitecture.ModularityValue
import CArchitecture.BigEdgeFirst
import CArchitecture.OptimalSteps
import CArchitecture.ReportedCut
import CArchitecture.SeedLoop
import CArchitecture.Library.FairRun
import CArchitecture.Pipeline
import CArchitecture.MgrProgress
import CArchitecture.LogThread
import CArchitecture.Library.Restriction
import CArchitecture.BisectionTree
import CArchitecture.RelationText
import CArchitecture.NamesFound
import CArchitecture.TestCase
import CArchitecture.Library.Interleaving
import CArchitecture.Architecture
import CArchitecture.BestTrial
import CArchitecture.EndParts
import CArchitecture.FileOrder
import CArchitecture.ObjectProgram
import CArchitecture.ProgramTypes
import CArchitecture.ProgramReading
import CArchitecture.ProgramRelation
