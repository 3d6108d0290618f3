import ElfLoader.BinfmtCodes
import ElfLoader.Boot
import ElfLoader.Descriptors
import ElfLoader.EtcFiles
import ElfLoader.ExecCycles
import ElfLoader.FailedProgram
import ElfLoader.FileImage
import ElfLoader.FileRead
import ElfLoader.FilesClosed
import ElfLoader.ICache
import ElfLoader.Interleaving
import ElfLoader.Ip4Addr
import ElfLoader.LoadOrder
import ElfLoader.LogBuf
import ElfLoader.PathLookup
import ElfLoader.PhdrTable
import ElfLoader.PlanTiling
import ElfLoader.Printed
import ElfLoader.StackBounds
import ElfLoader.Started
import ElfLoader.WriteExec
