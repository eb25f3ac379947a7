import Univdreams.Arch.BpfRoundTrip
import Univdreams.Arch.EvmKeccak
import Univdreams.Compile.EvmMaterialize
import Univdreams.Compile.EvmUnmoved
import Univdreams.Decompile.DropSections
import Univdreams.Decompile.EvmLiftRead
import Univdreams.Decompile.SectionCut
import Univdreams.Elf.Relayout
import Univdreams.Emulator.Alu
import Univdreams.Emulator.Amd64Threads
import Univdreams.Emulator.Bitfield
import Univdreams.Emulator.Confined
import Univdreams.Emulator.FlatMemory
import Univdreams.Emulator.Long64
import Univdreams.Emulator.OpenFrame
import Univdreams.Emulator.PipeCounts
import Univdreams.Emulator.Rename
import Univdreams.Emulator.Semaphore
import Univdreams.Emulator.SharedHandles
import Univdreams.Ir.ImmediateDominators
import Univdreams.Lower.StackFrame
import Univdreams.Lower.Structured
import Univdreams.Macho.RoundTrip
import Univdreams.Ud.PrologueText
import Univdreams.Ud.StmtContexts
