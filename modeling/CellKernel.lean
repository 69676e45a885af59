import CellKernel.QueueRuns
import CellKernel.QueueOwnership
import CellKernel.QueueOwnerChecks
import CellKernel.Pipeline
import CellKernel.PmmMemoryMap
import CellKernel.PmmCanonical
import CellKernel.KernelFairness
import CellKernel.WeakSerial
import CellKernel.SupervisorRuns
import CellKernel.TensorSize
import CellKernel.WeakQueueRuns
import CellKernel.KernelReduction
import CellKernel.WeakKernelFairness
import CellKernel.ConsoleSchedules
