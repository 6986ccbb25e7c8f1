import GraphAccelerator.Library.Levels
import GraphAccelerator.Adjacency
import GraphAccelerator.Bfs.Csr
import GraphAccelerator.Bfs.Transpose
import GraphAccelerator.Bfs.Traversal
import GraphAccelerator.Bfs.Rounds
import GraphAccelerator.Bfs.TopDown
import GraphAccelerator.Bfs.Traffic
import GraphAccelerator.Bfs.BottomUp
import GraphAccelerator.Bfs.Hybrid
import GraphAccelerator.Bfs.CacheHybrid
import GraphAccelerator.Bfs.CacheTraffic
import GraphAccelerator.Bfs.CacheSaving
import GraphAccelerator.Library.Ranks
import GraphAccelerator.Library.Kernel
import GraphAccelerator.Library.Rounds
import GraphAccelerator.Memory.Burst
import GraphAccelerator.Memory.Blocks
import GraphAccelerator.Memory.Wrapper
import GraphAccelerator.Memory.Accounting
import GraphAccelerator.Memory.Controller
import GraphAccelerator.Memory.Logs
import GraphAccelerator.Memory.AnyOrder
import GraphAccelerator.Memory.Completion
import GraphAccelerator.Memory.Transport
import GraphAccelerator.Memory.Ports
import GraphAccelerator.Memory.Carrying
import GraphAccelerator.Memory.ExactlyOnce
import GraphAccelerator.Memory.Accounted
import GraphAccelerator.Memory.Clocked
import GraphAccelerator.Library.TextStream
import GraphAccelerator.Accelerator.Config
import GraphAccelerator.Accelerator.Loading
import GraphAccelerator.Library.Draws
import GraphAccelerator.Accelerator.Sampling
import GraphAccelerator.Accelerator.Image
import GraphAccelerator.Accelerator.Pe
import GraphAccelerator.Accelerator.RoundTrip
import GraphAccelerator.Accelerator.Pipeline
import GraphAccelerator.Accelerator.Refinement
import GraphAccelerator.Accelerator.Stages
import GraphAccelerator.Library.Relaxation
import GraphAccelerator.Accelerator.LevelPass
import GraphAccelerator.Accelerator.LevelRefinement
import GraphAccelerator.Accelerator.Segments
import GraphAccelerator.Accelerator.Pacing
import GraphAccelerator.Accelerator.Simulation
import GraphAccelerator.Accelerator.Frames
import GraphAccelerator.Library.Queue
import GraphAccelerator.Accelerator.Lines
import GraphAccelerator.Accelerator.Pairing
import GraphAccelerator.Accelerator.PairedRuns
import GraphAccelerator.Accelerator.Cleaning
import GraphAccelerator.Accelerator.Replay
import GraphAccelerator.Accelerator.Inspection
import GraphAccelerator.Accelerator.Registry
import GraphAccelerator.Memory.Stamps
import GraphAccelerator.Accelerator.Occupancy
import GraphAccelerator.Accelerator.Waits
import GraphAccelerator.Accelerator.Ranking
import GraphAccelerator.Accelerator.Draining
import GraphAccelerator.Accelerator.Search
import GraphAccelerator.Accelerator.Pulse
import GraphAccelerator.Accelerator.Capacity
import GraphAccelerator.Accelerator.Barrier
import GraphAccelerator.Library.Chunks
import GraphAccelerator.Accelerator.Requests
import GraphAccelerator.Accelerator.Iterations
import GraphAccelerator.Accelerator.Idle
import GraphAccelerator.Accelerator.StartSignal
import GraphAccelerator.Accelerator.TimedSearch
import GraphAccelerator.Accelerator.TimedLevel
import GraphAccelerator.Accelerator.LevelEnd
import GraphAccelerator.Accelerator.Feeding
import GraphAccelerator.Accelerator.Filling
import GraphAccelerator.Accelerator.Overflow
import GraphAccelerator.Library.Spacing
import GraphAccelerator.Dram.Tree
import GraphAccelerator.Dram.Timing
import GraphAccelerator.Dram.Ddr3
import GraphAccelerator.Dram.Protocol
import GraphAccelerator.Dram.Channel
import GraphAccelerator.Dram.Rows
import GraphAccelerator.Dram.Scheduling
import GraphAccelerator.Dram.Abstraction
import GraphAccelerator.Dram.Serving
import GraphAccelerator.Dram.Safety
import GraphAccelerator.Dram.Refreshing
import GraphAccelerator.Library.Radix
import GraphAccelerator.Dram.Memory
import GraphAccelerator.Dram.Session
import GraphAccelerator.Dram.Runs
import GraphAccelerator.Dram.Progress
import GraphAccelerator.Dram.Draining
import GraphAccelerator.Dram.Guarantees
import GraphAccelerator.Memory.Answering
import GraphAccelerator.Dram.Service
