import XnnpackGemm.Graph
import XnnpackGemm.Config
import XnnpackGemm.Resolvers
import XnnpackGemm.GetDeps
import XnnpackGemm.Frame
import XnnpackGemm.ForceFlag
import XnnpackGemm.SrcPartition
import XnnpackGemm.PartitionWalk
import XnnpackGemm.Session
import XnnpackGemm.Cluster
import XnnpackGemm.Simulation
import XnnpackGemm.Schedule
import XnnpackGemm.Enabled
import XnnpackGemm.Weight
import XnnpackGemm.Convolution
import XnnpackGemm.Quantized
